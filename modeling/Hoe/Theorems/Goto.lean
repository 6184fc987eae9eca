import Hoe.Theorems.Columns

/-!
# The offset of a line and a column

`eb_goto_pos` skips pages by their lines and columns. It sets the column to zero for a page with a newline, and then forgets it:
the column it carries is the sum of the columns of all pages. The offset is right all the same when the line begins in the page
where it stops; otherwise it is right exactly when the column it carries there is, or lies so far behind the end of the line that
the error does not matter.
-/

namespace Hoe

open Framing

/-- The offset is the one that `min col (length of the line)` calls of `eb_nextc` reach from the beginning of the line, or the
end of the text when there is no such line. -/
def GotoRight (t : Pages) (charset : Charset) (line col : Nat) : Prop :=
  ∀ junk junk', (ebGotoPosCached t charset junk line col).2 =
    if line ≤ t.bytes.count newline then
      (nextcWalk t charset junk' (skipLines line t.bytes)
        (min col (lineLeft charset (t.bytes.drop (skipLines line t.bytes))))).2
    else t.totalSize

/-- The columns of all the pages, each as `get_pos` counts it, whether a newline follows or not. -/
def carried (charset : Charset) (ps : List Page) : Nat := (ps.map fun p => (getPos charset p.data).2).sum

/-- Behind the pages `pre`, the page is one where `eb_goto_pos` stops. -/
def StopsAt (charset : Charset) (line1 col1 : Nat) (pre : List Page) (p : Page) : Prop :=
  line1 < (tableBytes (pre ++ [p])).count newline ∨
    ((tableBytes (pre ++ [p])).count newline = line1 ∧ col1 ≤ carried charset (pre ++ [p]))

/-- How many calls of `eb_nextc` lead from the beginning of the block to the end of its first line, when it may begin in the
middle of a character. -/
def stepsLeft (charset : Charset) (text : List Byte) : Nat :=
  (text.takeWhile fun c => !charset.lead c).length + lineLeft charset text

/-- Where `eb_goto_pos` comes to a page on the line it looks for, in front of the column it looks for, and stops there, the page
begins with a character and as many characters of the line stand in front of it as the pages have columns; or the column is so
large that the end of the line is reached from the page on. -/
def CarriesRight (charset : Charset) (ps : List Page) (line1 col1 : Nat) : Prop :=
  ∀ pre p post, ps = pre ++ p :: post → (tableBytes pre).count newline = line1 → carried charset pre < col1 →
    StopsAt charset line1 col1 pre p →
    (carried charset pre = (lastLine (tableBytes pre)).countP charset.lead ∧ charset.lead (p.data.headD 0) = true) ∨
      carried charset pre + stepsLeft charset (tableBytes (p :: post)) ≤ col1

instance (charset : Charset) (line1 col1 : Nat) (pre : List Page) (p : Page) : Decidable (StopsAt charset line1 col1 pre p) := by
  unfold StopsAt
  infer_instance

/-- A statement about every place in a list is one about every index. -/
theorem forall_append_cons_iff {α : Type*} {l : List α} {P : List α → α → List α → Prop} :
    (∀ pre p post, l = pre ++ p :: post → P pre p post) ↔ ∀ i, ∀ h : i < l.length, P (l.take i) l[i] (l.drop (i + 1)) := by
  constructor
  · intro h i hi
    refine h _ _ _ ?_
    rw [← List.drop_eq_getElem_cons hi, List.take_append_drop]
  · rintro h pre p post rfl
    have := h pre.length (by simp)
    simpa using this

instance (charset : Charset) (ps : List Page) (line1 col1 : Nat) : Decidable (CarriesRight charset ps line1 col1) :=
  decidable_of_iff _ forall_append_cons_iff.symm

@[simp] theorem carried_nil (charset : Charset) : carried charset [] = 0 := rfl

@[simp] theorem carried_append (charset : Charset) (ps qs : List Page) :
    carried charset (ps ++ qs) = carried charset ps + carried charset qs := by
  simp [carried]

/-! ## Where the loop stops -/

/-- The loop over the pages stops at none, or at the first one that meets its condition. -/
theorem gotoPosStop_cases (charset : Charset) (line1 col1 : Nat) (qs ps : List Page) :
    (gotoPosStop charset line1 col1 ps (tableSize qs) ((tableBytes qs).count newline) (carried charset qs) = none ∧
      ∀ pre p post, ps = pre ++ p :: post → ¬StopsAt charset line1 col1 (qs ++ pre) p) ∨
    ∃ pre p post, ps = pre ++ p :: post ∧ StopsAt charset line1 col1 (qs ++ pre) p ∧
      (∀ pre' p' post', pre = pre' ++ p' :: post' → ¬StopsAt charset line1 col1 (qs ++ pre') p') ∧
      gotoPosStop charset line1 col1 ps (tableSize qs) ((tableBytes qs).count newline) (carried charset qs) =
        some (tableSize (qs ++ pre) + skipLines (line1 - (tableBytes (qs ++ pre)).count newline) p.data,
          col1 - if (tableBytes (qs ++ pre)).count newline < line1 then 0 else carried charset (qs ++ pre)) := by
  induction ps generalizing qs with
  | nil => exact Or.inl ⟨rfl, fun pre p post h => by simp at h⟩
  | cons p ps ih =>
    have hline : (tableBytes (qs ++ [p])).count newline = (tableBytes qs).count newline + (getPos charset p.data).1 := by
      simp [getPos]
    have hcol : carried charset (qs ++ [p]) = carried charset qs + (getPos charset p.data).2 := by simp [carried]
    rw [gotoPosStop]
    simp only [← hline, ← hcol]
    by_cases hstop : StopsAt charset line1 col1 qs p
    · refine Or.inr ⟨[], p, ps, rfl, by rwa [List.append_nil], fun pre' p' post' h => by simp at h, ?_⟩
      rw [StopsAt] at hstop
      rw [if_pos hstop, List.append_nil]
    · have hstop' := hstop
      rw [StopsAt] at hstop'
      rw [if_neg hstop', show tableSize qs + p.size = tableSize (qs ++ [p]) by simp]
      have hfirst : ∀ pre' p' post', p :: ps = pre' ++ p' :: post' →
          (pre' = [] ∧ p' = p) ∨ ∃ pre'', pre' = p :: pre'' ∧ ps = pre'' ++ p' :: post' := by
        intro pre' p' post' h
        cases pre' with
        | nil => exact Or.inl ⟨rfl, (List.cons.inj h).1.symm⟩
        | cons q pre'' =>
          obtain ⟨rfl, htail⟩ := List.cons.inj h
          exact Or.inr ⟨pre'', rfl, htail⟩
      rcases ih (qs ++ [p]) with ⟨h1, h2⟩ | ⟨pre, q, post, rfl, h1, h2, h3⟩
      · refine Or.inl ⟨h1, fun pre' p' post' h => ?_⟩
        rcases hfirst pre' p' post' h with ⟨rfl, rfl⟩ | ⟨pre'', rfl, htail⟩
        · rwa [List.append_nil]
        · have := h2 pre'' p' post' htail
          rwa [List.append_assoc] at this
      · rw [List.append_assoc, List.singleton_append] at h1 h3
        refine Or.inr ⟨p :: pre, q, post, rfl, h1, fun pre' p' post' h => ?_, h3⟩
        cases pre' with
        | nil =>
          rw [List.append_nil, ← (List.cons.inj h).1]
          exact hstop
        | cons q' pre'' =>
          obtain ⟨rfl, htail⟩ := List.cons.inj h
          have := h2 pre'' p' post' htail
          rwa [List.append_assoc] at this

/-! ## What the offset is compared with -/

theorem exists_front_count {text : List Nat} {n : Nat} (h : n ≤ text.count newline) :
    ∃ front back, text = front ++ back ∧ front.count newline = n := by
  induction text generalizing n with
  | nil => exact ⟨[], [], rfl, by rw [List.count_nil] at h ⊢; omega⟩
  | cons c text ih =>
    cases n with
    | zero => exact ⟨[], _, rfl, rfl⟩
    | succ n =>
      by_cases hc : c = newline
      · rw [hc, List.count_cons_self] at h
        obtain ⟨front, back, rfl, hcount⟩ := ih (n := n) (by omega)
        exact ⟨c :: front, back, rfl, by rw [hc, List.count_cons_self, hcount]⟩
      · rw [List.count_cons_of_ne hc] at h
        obtain ⟨front, back, rfl, hcount⟩ := ih h
        exact ⟨c :: front, back, rfl, by rw [List.count_cons_of_ne hc, hcount]⟩

variable {t : Pages} {charset : Charset}

/-- The last loop of `eb_goto_pos` from the beginning of the line reaches what the offset is compared with. -/
theorem gotoRight_iff (ht : t.Ok) (hw : Whole charset.lead charset.width t.bytes) (line col : Nat) :
    GotoRight t charset line col ↔ ∀ junk, (ebGotoPosCached t charset junk line col).2 =
      if line ≤ t.bytes.count newline then gotoCol ⟨t.bytes, charset, []⟩ col (skipLines line t.bytes : Nat)
      else t.totalSize := by
  by_cases hline : line ≤ t.bytes.count newline
  · obtain ⟨front, back, htext, hcount⟩ := exists_front_count hline
    rw [htext] at hw
    obtain ⟨a, ha, hlen, hwa, hwl⟩ := whole_line hw
    rw [← htext, hcount] at hlen
    have hcut : t.bytes = a ++ (lastLine front ++ back) := by rw [htext, ← List.append_assoc, ← ha]
    have hstart : a.length ≤ t.totalSize := by
      rw [← ht.length_bytes, hcut]
      simp
    have hdrop : t.bytes.drop a.length = lastLine front ++ back := by rw [hcut, List.drop_left]
    have hno : ∀ o, ¬CutOff charset t.bytes o := not_cutOff_of_whole (by rw [hcut]; exact hwa.append hwl)
    have hspec (junk' : Nat → List Byte) :
        (nextcWalk t charset junk' (skipLines line t.bytes) (min col (lineLeft charset (t.bytes.drop (skipLines line t.bytes))))).2 =
          gotoCol ⟨t.bytes, charset, []⟩ col (skipLines line t.bytes : Nat) := by
      rw [← hlen, hdrop, (nextcWalk_eq ht (r := ⟨t.bytes, charset, []⟩) rfl hno junk' hstart _).1]
      exact (Reader.gotoCol_eq_nextcs (r := ⟨t.bytes, charset, []⟩) hcut hwl col).symm
    simp only [GotoRight, if_pos hline, hspec, forall_const]
  · simp only [GotoRight, if_neg hline, forall_const]

/-- What `eb_goto_pos` returns on a text of whole characters. -/
theorem ebGotoPosCached_eq (ht : t.Ok) (hc : t.Counted charset) (hw : Whole charset.lead charset.width t.bytes)
    (junk : Nat → List Byte) (line col : Nat) :
    (ebGotoPosCached t charset junk line col).2 =
      match gotoPosStop charset line col t.pageTable 0 0 0 with
      | none => (t.totalSize : Int)
      | some (o, n) => gotoCol ⟨t.bytes, charset, []⟩ n (o : Nat) := by
  obtain ⟨h1, h2⟩ := gotoPosLoop_spec line col hc 0 0 0
  obtain ⟨h3, h4⟩ := h2.pages ht
  rw [ebGotoPosCached]
  simp only [h1]
  cases gotoPosStop charset line col t.pageTable 0 0 0 with
  | none => rfl
  | some found =>
    exact gotoColLoop_eq h3 (r := ⟨t.bytes, charset, []⟩) h4.symm (not_cutOff_of_whole hw) junk found.2 found.1

/-! ## The column that is carried -/

/-- The pages have at least as many columns as their last line has characters. -/
theorem le_carried {k : Nat} {ps : List Page} (h : Piece charset.lead charset.width k (tableBytes ps)) :
    (lastLine (tableBytes ps)).countP charset.lead ≤ carried charset ps := by
  induction ps generalizing k with
  | nil => simp
  | cons p ps ih =>
    rw [tableBytes_cons] at h ⊢
    obtain ⟨h1, h2⟩ := (piece_append k _ _).mp h
    have hrest := ih h2
    have hcons : carried charset (p :: ps) = (getPos charset p.data).2 + carried charset ps := by simp [carried]
    rw [lastLine_append, hcons]
    by_cases hn : newline ∈ tableBytes ps
    · rw [if_pos hn]
      omega
    · rw [if_neg hn, List.countP_append]
      rw [lastLine_of_not_mem hn] at hrest
      have hcol : (lastLine p.data).countP charset.lead ≤ (getPos charset p.data).2 := by
        rw [getPos_piece h1]
        by_cases hn' : newline ∈ p.data
        · simp only [if_pos hn']
          omega
        · simp only [if_neg hn', lastLine_of_not_mem hn']
          omega
      omega

theorem stepsLeft_eq {q rest : List Byte} (hq : ∀ c ∈ q, charset.lead c = false) (hr : Whole charset.lead charset.width rest) :
    stepsLeft charset (q ++ rest) = q.length + lineLeft charset rest := by
  have hcount : q.countP charset.lead = 0 := List.countP_eq_zero.mpr fun c hc => by simp [hq c hc]
  have hn : newline ∉ q := fun h => by simpa [charset.lead_newline] using hq newline h
  have htails : (rest.takeWhile fun c => !charset.lead c) = [] := by
    cases rest with
    | nil => rfl
    | cons c rest => rw [List.takeWhile_cons_of_neg (by simp [hr.1.1])]
  rw [stepsLeft, lineLeft_append hn, hcount, Nat.zero_add, List.takeWhile_append_of_pos (by simpa using hq), htails,
    List.append_nil]

/-- From a cut of the text on `col - carry` characters lead to where `col` characters lead from the beginning of the line, when
the carry is right, or when both lead to the end of the line. -/
theorem gotoCol_carry_iff {r : Reader} {front back : List Byte} (ht : r.text = front ++ back)
    (hw : Whole r.charset.lead r.charset.width r.text) {carry col : Nat}
    (hle : (lastLine front).countP r.charset.lead ≤ carry) (hlt : carry < col) :
    gotoCol r (col - carry) front.length = gotoCol r col (skipLines (front.count newline) r.text : Nat) ↔
      (carry = (lastLine front).countP r.charset.lead ∧ owed r.charset.width 0 front = 0) ∨
        carry + stepsLeft r.charset back ≤ col := by
  rw [ht] at hw
  obtain ⟨a, ha, hlen, -, hwl⟩ := whole_line hw
  obtain ⟨q, rest, rfl, hq, hqt, hwr⟩ := hw.cut_owed
  have hn := (exists_lastLine front).1
  have hnq : newline ∉ q := fun h => by simpa [r.charset.lead_newline] using hqt newline h
  have hqcount : q.countP r.charset.lead = 0 := List.countP_eq_zero.mpr fun c hc => by simp [hqt c hc]
  have hcut : r.text = a ++ (lastLine front ++ (q ++ rest)) := by rw [ht, ← List.append_assoc a, ← ha]
  have hleft : lineLeft r.charset (lastLine front ++ (q ++ rest)) =
      (lastLine front).countP r.charset.lead + lineLeft r.charset rest := by
    rw [lineLeft_append hn, lineLeft_append hnq, hqcount, Nat.zero_add]
  obtain ⟨mid, rest', hsplit, hm, hr', hmcount, hgoto⟩ := Reader.gotoCol_line hcut hwl col
  have hflen := congrArg List.length ha
  rw [List.length_append] at hflen
  rw [ht, ← hlen, hgoto, stepsLeft_eq hqt hwr, ← hq]
  rw [hleft] at hmcount
  by_cases hd : q.length ≤ col - carry
  · -- the loop goes over the rest of the character first
    obtain ⟨m, hm'⟩ : ∃ m, col - carry = q.length + m := ⟨col - carry - q.length, by omega⟩
    have hcut' : r.text = front ++ q ++ rest := by rw [ht, List.append_assoc]
    obtain ⟨mid', rest'', hsplit', hm'', hr'', hcount', hgoto'⟩ := Reader.gotoCol_line hcut' hwr m
    have hwhole : Whole r.charset.lead r.charset.width (lastLine front ++ (q ++ mid')) := by
      rw [hsplit', ← List.append_assoc q, ← List.append_assoc] at hwl
      exact hwl.of_right hr''
    have hboth : mid ++ rest' = lastLine front ++ (q ++ mid') ++ rest'' := by
      rw [← hsplit, hsplit']
      simp
    have hpos := Whole.length_eq_iff hboth hm hwhole
    rw [hmcount, List.countP_append, List.countP_append, hqcount, hcount'] at hpos
    rw [hm', Reader.gotoCol_tails ht hqt, hgoto']
    simp only [List.length_append] at hpos hflen ⊢
    omega
  · -- the loop ends in the middle of the character, where no boundary is
    refine iff_of_false (fun h => ?_) (by omega)
    have htake := Reader.gotoCol_tails
      (show r.text = front ++ (q.take (col - carry) ++ (q.drop (col - carry) ++ rest)) by rw [ht]; simp [← List.append_assoc])
      (fun c hc => hqt c (List.mem_of_mem_take hc)) 0
    have hmin : (q.take (col - carry)).length = col - carry := by
      rw [List.length_take]
      omega
    rw [Nat.add_zero, hmin, gotoCol, h] at htake
    have hmid : mid.length = (lastLine front ++ q.take (col - carry)).length := by
      rw [List.length_append, List.length_append, Int.natCast_inj] at htake
      rw [List.length_append]
      omega
    have hsplit' : mid ++ rest' = lastLine front ++ q.take (col - carry) ++ (q.drop (col - carry) ++ rest) := by
      rw [← hsplit, List.append_assoc, ← List.append_assoc (q.take _), List.take_append_drop]
    rw [(List.append_inj hsplit' hmid).2, List.drop_eq_getElem_cons (by omega)] at hr'
    have hfalse := hqt _ (List.getElem_mem (by omega : col - carry < q.length))
    rw [hr'.1.1] at hfalse
    cases hfalse

/-! ## The condition -/

/-- Two places in a list are the same, or one lies in front of the other. -/
theorem append_cons_cases {α : Type*} {pre post pre' post' : List α} {p p' : α} (h : pre ++ p :: post = pre' ++ p' :: post') :
    (pre' = pre ∧ p' = p ∧ post' = post) ∨ (∃ d, pre = pre' ++ p' :: d) ∨ ∃ d, pre' = pre ++ p :: d := by
  rcases List.append_eq_append_iff.mp h with ⟨d, rfl, hd⟩ | ⟨d, rfl, hd⟩
  · cases d with
    | nil =>
      obtain ⟨rfl, rfl⟩ := List.cons.inj hd
      exact Or.inl ⟨List.append_nil _, rfl, rfl⟩
    | cons q d =>
      obtain ⟨rfl, -⟩ := List.cons.inj hd
      exact Or.inr (Or.inr ⟨d, rfl⟩)
  · cases d with
    | nil =>
      obtain ⟨rfl, rfl⟩ := List.cons.inj hd
      exact Or.inl ⟨(List.append_nil _).symm, rfl, rfl⟩
    | cons q d =>
      obtain ⟨rfl, -⟩ := List.cons.inj hd
      exact Or.inr (Or.inl ⟨d, rfl⟩)

theorem StopsAt.not_of_longer {line col : Nat} {pre d : List Page} {p : Page} (h : StopsAt charset line col pre p)
    (hline : (tableBytes (pre ++ p :: d)).count newline = line) (hcol : carried charset (pre ++ p :: d) < col) : False := by
  rw [show pre ++ p :: d = (pre ++ [p]) ++ d by simp, tableBytes_append, List.count_append] at hline
  rw [show pre ++ p :: d = (pre ++ [p]) ++ d by simp, carried_append] at hcol
  rcases h with h | ⟨-, h⟩ <;> omega

/-- At the page where the loop stops the condition is about that page alone. -/
theorem carriesRight_iff {line col : Nat} {pre post : List Page} {p : Page} (hstop : StopsAt charset line col pre p)
    (hfirst : ∀ pre' p' post', pre = pre' ++ p' :: post' → ¬StopsAt charset line col pre' p') :
    CarriesRight charset (pre ++ p :: post) line col ↔
      ((tableBytes pre).count newline = line → carried charset pre < col →
        (carried charset pre = (lastLine (tableBytes pre)).countP charset.lead ∧ charset.lead (p.data.headD 0) = true) ∨
          carried charset pre + stepsLeft charset (tableBytes (p :: post)) ≤ col) := by
  constructor
  · exact fun h hline hcol => h pre p post rfl hline hcol hstop
  · intro h pre' p' post' hps hline hcol hstop'
    rcases append_cons_cases hps with ⟨rfl, rfl, rfl⟩ | ⟨d, rfl⟩ | ⟨d, rfl⟩
    · exact h hline hcol
    · exact absurd hstop' (hfirst pre' p' d rfl)
    · exact (hstop.not_of_longer hline hcol).elim

/-- Where the loop stops at no page, the line is none or the column lies behind its end. -/
theorem gotoCol_none (hw : Whole charset.lead charset.width t.bytes) {line col : Nat}
    (hnone : ∀ pre p post, t.pageTable = pre ++ p :: post → ¬StopsAt charset line col pre p)
    (hline : line ≤ t.bytes.count newline) :
    gotoCol ⟨t.bytes, charset, []⟩ col (skipLines line t.bytes : Nat) = (t.bytes.length : Int) := by
  rcases List.eq_nil_or_concat' t.pageTable with hnil | ⟨pre, p, hlast⟩
  · have hempty : t.bytes = [] := by rw [t.bytes_eq, hnil]; rfl
    rw [hempty, List.count_nil] at hline
    rw [hempty, Nat.le_zero.mp hline]
    exact Reader.gotoCol_end (r := ⟨[], charset, []⟩) col (Int.le_refl 0)
  · have hno := hnone pre p [] hlast
    rw [StopsAt, ← hlast, ← t.bytes_eq] at hno
    have hcount : t.bytes.count newline = line := by omega
    have hcarry : (lastLine t.bytes).countP charset.lead ≤ carried charset t.pageTable := le_carried hw.1
    rw [← List.append_nil t.bytes] at hw
    obtain ⟨a, ha, hlen, -, hwl⟩ := whole_line hw
    rw [List.append_nil, hcount] at hlen
    obtain ⟨mid, rest, hsplit, -, hr, hmid, hgoto⟩ :=
      Reader.gotoCol_line (r := ⟨t.bytes, charset, []⟩) (by rw [← List.append_assoc, ← ha, List.append_nil]) hwl col
    rw [lineLeft_append (exists_lastLine t.bytes).1] at hmid
    have hsum := congrArg (List.countP charset.lead) hsplit
    rw [List.append_nil, List.countP_append] at hsum
    have hrest : rest = [] := hr.eq_nil (by simp only at hmid ⊢; omega)
    rw [hrest, List.append_nil, List.append_nil] at hsplit
    rw [← hlen, hgoto, ← hsplit, ← ha]

/-- The offset is right exactly when the condition holds. -/
theorem gotoRight_iff_carriesRight (ht : t.Ok) (hc : t.Counted charset) (hw : Whole charset.lead charset.width t.bytes)
    (line col : Nat) : GotoRight t charset line col ↔ CarriesRight charset t.pageTable line col := by
  simp only [gotoRight_iff ht hw, ebGotoPosCached_eq ht hc hw, forall_const]
  rcases gotoPosStop_cases charset line col [] t.pageTable with ⟨h1, h2⟩ | ⟨pre, p, post, hps, h1, h2, h3⟩
  · simp only [tableSize_nil, tableBytes_nil, List.count_nil, carried_nil, List.nil_append] at h1 h2
    rw [h1]
    refine iff_of_true ?_ (fun pre p post hps _ _ hstop => absurd hstop (h2 pre p post hps))
    by_cases hline : line ≤ t.bytes.count newline
    · rw [if_pos hline, gotoCol_none hw h2 hline, ht.length_bytes]
    · rw [if_neg hline]
  · simp only [tableSize_nil, tableBytes_nil, List.count_nil, carried_nil, List.nil_append] at h1 h2 h3
    have htext : t.bytes = tableBytes pre ++ tableBytes (p :: post) := by rw [t.bytes_eq, hps, tableBytes_append]
    have hsize : tableSize pre = (tableBytes pre).length :=
      (length_tableBytes fun q hq => ht.pages q (by rw [hps]; exact List.mem_append_left _ hq)).symm
    have hcount : (tableBytes (pre ++ [p])).count newline = (tableBytes pre).count newline + p.data.count newline := by simp
    have hge : line ≤ (tableBytes pre).count newline + p.data.count newline := by
      rcases h1 with h1 | h1 <;> omega
    have hin : line ≤ t.bytes.count newline := by
      rw [htext, tableBytes_cons, List.count_append, List.count_append]
      omega
    rw [h3, if_pos hin, hps, carriesRight_iff h1 h2]
    simp only
    by_cases hlt : (tableBytes pre).count newline < line
    · -- the line begins in the page
      obtain ⟨m, hm⟩ : ∃ m, line - (tableBytes pre).count newline = m + 1 := ⟨line - (tableBytes pre).count newline - 1, by omega⟩
      have hstart : skipLines line t.bytes = tableSize pre + skipLines (m + 1) p.data := by
        rw [show line = (tableBytes pre).count newline + (m + 1) by omega, htext, skipLines_add, tableBytes_cons,
          skipLines_append (by omega), hsize]
      rw [if_pos hlt, Nat.sub_zero, hm, hstart]
      exact iff_of_true rfl (fun hline => by omega)
    · -- the page begins on the line
      have hbefore : (tableBytes pre).count newline = line ∧ (pre = [] ∨ carried charset pre < col) := by
        rcases List.eq_nil_or_concat' pre with rfl | ⟨pre', q, rfl⟩
        · rw [tableBytes_nil, List.count_nil] at hlt ⊢
          exact ⟨by omega, Or.inl rfl⟩
        · have hno := h2 pre' q [] rfl
          rw [StopsAt] at hno
          exact ⟨by omega, Or.inr (by omega)⟩
      obtain ⟨hline, hcarry⟩ := hbefore
      rw [if_neg hlt, hline, Nat.sub_self, show skipLines 0 p.data = 0 from rfl, Nat.add_zero, hsize]
      simp only [forall_const]
      by_cases hcol : carried charset pre < col
      · have hpiece : Piece charset.lead charset.width 0 (tableBytes pre ++ (p.data ++ tableBytes post)) := by
          rw [← tableBytes_cons, ← htext]
          exact hw.1
        obtain ⟨hfront, hback⟩ := (piece_append 0 _ _).mp hpiece
        have hp : p.Ok := ht.pages p (by rw [hps]; simp)
        have hlead := lead_head_iff hp hback
        rw [← hline, gotoCol_carry_iff (r := ⟨t.bytes, charset, []⟩) htext hw (le_carried hfront) hcol]
        simp only [hcol, forall_const]
        rw [← Bool.not_eq_false, hlead, not_not]
      · have hnil : pre = [] := hcarry.resolve_right hcol
        rw [hnil, tableBytes_nil, List.count_nil] at hline
        rw [hnil, carried_nil] at hcol
        rw [hnil, ← hline, Nat.le_zero.mp (Nat.le_of_not_lt hcol)]
        exact iff_of_true rfl (fun h => absurd h (Nat.lt_irrefl 0))

/-- In the charsets other than UTF-8 what the offset is compared with, for the line and the column of an offset, is the offset. -/
theorem gotoRight_getPos_iff (ht : t.Ok) (hc : t.Counted charset) (hu : charset ≠ .utf8) {o : Nat} (ho : o ≤ t.totalSize) :
    GotoRight t charset (ebGetPosCached t charset o).2.1 (ebGetPosCached t charset o).2.2 ↔
      ∀ junk, (ebGotoPosCached t charset junk (ebGetPosCached t charset o).2.1 (ebGetPosCached t charset o).2.2).2 = o := by
  have hlen := ht.length_bytes
  have hlead (c : Nat) : charset.lead c = true := by simp [Charset.lead, hu]
  have hsplit : ¬SplitsChar charset t.pageTable o := by
    rintro ⟨pre, p, post, -, -, -, hl⟩
    rw [hlead] at hl
    cases hl
  obtain ⟨extra, h1, h2⟩ := ebGetPosCached_eq ht hc (whole_bytes hu _) ho
  rw [h1.mpr hsplit, Nat.add_zero] at h2
  have hb : Boundary charset t.bytes o := ⟨by omega, fun h => absurd h hu⟩
  have hsteps := (stepsFromBol_iff ht hb _).mpr rfl
  have hline : (t.bytes.take o).count newline ≤ t.bytes.count newline := (List.take_sublist o t.bytes).count_le newline
  have hbol := bolOf_eq_skipLines t.bytes (o := o) (by omega)
  obtain ⟨a, ha, halen, -, -⟩ := whole_line (whole_bytes hu (t.bytes.take o ++ t.bytes.drop o))
  rw [List.take_append_drop, ← hbol] at halen
  have hdrop : t.bytes.drop (bolOf t.bytes o) = lastLine (t.bytes.take o) ++ t.bytes.drop o := by
    have hcut : t.bytes = a ++ (lastLine (t.bytes.take o) ++ t.bytes.drop o) := by
      rw [← List.append_assoc, ← ha, List.take_append_drop]
    rw [← halen]
    exact (congrArg (List.drop a.length) hcut).trans List.drop_left
  rw [h2, GotoRight]
  simp only [if_pos hline, ← hbol, hdrop, lineLeft_append (exists_lastLine _).1, Nat.min_eq_left (Nat.le_add_right _ _),
    (hsteps _).1, forall_const]

/-- On a text of whole characters, with its counts up to date, `eb_goto_pos` is right for a line and a column exactly when the
column it carries is. In the charsets other than UTF-8 it takes back what `eb_get_pos` does exactly then. -/
theorem ebGotoPos_right_iff (ht : t.Ok) (hc : t.Counted charset) (hw : WellEncoded charset t.bytes) :
    (∀ line col, GotoRight t charset line col ↔ CarriesRight charset t.pageTable line col) ∧
      (charset ≠ .utf8 → ∀ o ≤ t.totalSize,
        (∀ junk, (ebGotoPosCached t charset junk (ebGetPosCached t charset o).2.1 (ebGetPosCached t charset o).2.2).2 = o) ↔
          CarriesRight charset t.pageTable (ebGetPosCached t charset o).2.1 (ebGetPosCached t charset o).2.2) := by
  refine ⟨gotoRight_iff_carriesRight ht hc hw.whole, fun hu o ho => ?_⟩
  rw [← gotoRight_getPos_iff ht hc hu ho]
  exact gotoRight_iff_carriesRight ht hc hw.whole _ _

/-- Three pages, each of them inserted as a whole: `ab`, `c` and a `d` on the next line, and `efgh`. -/
def carryBuffer : EditBuffer :=
  let page (buf : List Byte) : Pages := (ebInsert (EditBuffer.new false) 0 buf).toPages
  let b := ebInsert (EditBuffer.new false) 0 [0x65, 0x66, 0x67, 0x68]
  let b := (ebInsertBuffer b 0 (page [0x63, newline, 0x64]) 0 3).1
  (ebInsertBuffer b 0 (page [0x61, 0x62]) 0 2).1

theorem carryBuffer_ok : carryBuffer.toPages.Ok := by
  have hpage (buf : List Byte) := ebInsert_stands (new_stands false) (Nat.zero_le _) buf
  have h := (ebInsertBuffer_stands (hpage [0x65, 0x66, 0x67, 0x68]) (hpage [0x63, newline, 0x64]).ok 0 0 3 (Nat.zero_le _)
    (by decide)).1
  exact (ebInsertBuffer_stands h (hpage [0x61, 0x62]).ok 0 0 2 (Nat.zero_le _) (by decide)).1.ok

theorem carryBuffer_counted : carryBuffer.toPages.Counted .latin1 := by
  have hflags : ∀ p ∈ carryBuffer.pageTable, p.validPos = false ∧ p.validChar = false := by decide
  intro p hp
  obtain ⟨h1, h2⟩ := hflags p hp
  exact ⟨fun h => absurd h (by simp [h1]), fun h => absurd h (by simp [h2])⟩

/-- The second column of the second line is found: the line begins in the page where `eb_goto_pos` stops. -/
theorem ebGotoPos_right_second : GotoRight carryBuffer.toPages .latin1 1 2 :=
  ((ebGotoPos_right_iff carryBuffer_ok carryBuffer_counted (fun h => by cases h)).1 1 2).mpr (by decide)

/-- The fourth is not: the two columns of the first line are carried to the last page, and the offset is 6 instead of 8. -/
theorem not_ebGotoPos_right : ¬∀ t : Pages, t.Ok → ∀ charset, t.Counted charset → WellEncoded charset t.bytes →
    (∀ line col, GotoRight t charset line col) ∧
      (charset ≠ .utf8 → ∀ o ≤ t.totalSize, ∀ junk,
        (ebGotoPosCached t charset junk (ebGetPosCached t charset o).2.1 (ebGetPosCached t charset o).2.2).2 = o) := by
  intro h
  have h8 := (h _ carryBuffer_ok _ carryBuffer_counted (fun h => by cases h)).2 (by decide) 8 (by decide) fun _ => []
  revert h8
  decide

end Hoe
