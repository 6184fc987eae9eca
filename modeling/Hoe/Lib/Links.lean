import Mathlib.Data.List.Chain
import Mathlib.Data.List.Nodup
import Mathlib.Logic.Function.Basic

/-!
# Circular lists of linked nodes

Nodes that hold the addresses of the next one and of the previous one, and stand in a circle that begins and ends at a head. A node
goes in between two neighbours with four writes, and out of the circle with two; circles that share no node with these stay as they
are.
-/

namespace Links

variable {α : Type*}

/-- The two addresses in each node. -/
structure Store (α : Type*) where
  next : α → α
  prev : α → α

namespace Store

/-- Each node of the list has the one behind it as its next, and is the previous one of it. -/
def Linked (s : Store α) (xs : List α) : Prop := xs.IsChain fun a b => s.next a = b ∧ s.prev b = a

/-- The nodes stand in the circle of the head, each of them once. -/
structure Ring (s : Store α) (h : α) (xs : List α) : Prop where
  linked : s.Linked (h :: xs ++ [h])
  nodup : (h :: xs).Nodup

variable {s : Store α} {h p n e : α} {xs ys ps ns : List α}

/-- A circle that is cut between two neighbours. -/
theorem exists_cut (h : α) (xs ys : List α) : ∃ ps p n ns, h :: xs = ps ++ [p] ∧ ys ++ [h] = n :: ns := by
  obtain ⟨ps, p, hp⟩ := (List.eq_nil_or_concat' (h :: xs)).resolve_left (by simp)
  cases ys with
  | nil => exact ⟨ps, p, h, [], hp, rfl⟩
  | cons y ys => exact ⟨ps, p, y, ys ++ [h], hp, rfl⟩

/-- Two linked lists, with a link from the end of the first one to the beginning of the second one. -/
theorem Linked.append (hxs : s.Linked (xs ++ [p])) (hys : s.Linked (n :: ys)) (hnext : s.next p = n) (hprev : s.prev n = p) :
    s.Linked (xs ++ [p] ++ n :: ys) := by
  refine List.isChain_append.2 ⟨hxs, hys, ?_⟩
  intro a ha b hb
  simp only [List.getLast?_append, List.getLast?_singleton, Option.mem_def, Option.some.injEq, List.head?_cons] at ha hb
  simp_all

/-- The two parts of a linked list, and what is between them. -/
theorem Linked.split (hl : s.Linked (xs ++ [p] ++ n :: ys)) :
    s.Linked (xs ++ [p]) ∧ s.Linked (n :: ys) ∧ s.next p = n ∧ s.prev n = p := by
  obtain ⟨hxs, hys, hboth⟩ := List.isChain_append.1 hl
  exact ⟨hxs, hys, hboth p (by simp) n (by simp)⟩

namespace Ring

/-- The circle of a head that has no other node. -/
theorem empty (hnext : s.next h = h) (hprev : s.prev h = h) : s.Ring h [] :=
  ⟨List.isChain_pair.2 ⟨hnext, hprev⟩, List.nodup_singleton h⟩

/-- The two sides of a cut. -/
theorem cut (hr : s.Ring h (xs ++ ys)) (hp : h :: xs = ps ++ [p]) (hn : ys ++ [h] = n :: ns) :
    s.Linked (ps ++ [p]) ∧ s.Linked (n :: ns) ∧ s.next p = n ∧ s.prev n = p := by
  apply Linked.split
  have hl := hr.linked
  rwa [← List.cons_append, List.append_assoc, hn, hp] at hl

/-- What is in front of a cut comes once, and so does what is behind it. -/
theorem apart (hr : s.Ring h (xs ++ ys)) (hp : h :: xs = ps ++ [p]) (hn : ys ++ [h] = n :: ns) :
    p ∉ ps ∧ p ∉ ys ∧ n ∉ xs ∧ n ∉ ns := by
  have hfront : (ps ++ [p] ++ ys).Nodup := by
    have hnodup := hr.nodup
    rwa [← List.cons_append, hp] at hnodup
  have hback : (xs ++ n :: ns).Nodup := by
    have hnodup := (List.perm_append_singleton h (xs ++ ys)).nodup_iff.2 hr.nodup
    rwa [List.append_assoc, hn] at hnodup
  simp only [List.append_assoc, List.singleton_append] at hfront
  have hp' := List.nodup_middle.1 hfront
  have hn' := List.nodup_middle.1 hback
  simp only [List.nodup_cons, List.mem_append, not_or] at hp' hn'
  exact ⟨hp'.1.1, hp'.1.2, hn'.1.1, hn'.1.2⟩

end Ring

/-! ## Writes -/

variable [DecidableEq α]

/-- The second node is made to follow the first one. -/
def link (s : Store α) (a b : α) : Store α := ⟨Function.update s.next a b, Function.update s.prev b a⟩

/-- A node goes in between two others. -/
def insert (s : Store α) (e p n : α) : Store α := (s.link e n).link p e

/-- What is between two nodes goes out. -/
def remove (s : Store α) (p n : α) : Store α := s.link p n

theorem link_next (s : Store α) (a b : α) : (s.link a b).next a = b := by simp [link]

theorem link_prev (s : Store α) (a b : α) : (s.link a b).prev b = a := by simp [link]

theorem link_next_of_ne {a b c : α} (hc : c ≠ a) : (s.link a b).next c = s.next c := by simp [link, hc]

theorem link_prev_of_ne {a b c : α} (hc : c ≠ b) : (s.link a b).prev c = s.prev c := by simp [link, hc]

/-- A link from no node of a list but the last one, to none but the first one, leaves the list linked. -/
theorem Linked.link {a b : α} (hxs : s.Linked xs) (ha : a ∉ xs.dropLast) (hb : b ∉ xs.tail) : (s.link a b).Linked xs := by
  induction xs with
  | nil => exact List.isChain_nil
  | cons x xs ih =>
    cases xs with
    | nil => exact List.isChain_singleton x
    | cons y xs =>
      simp only [List.dropLast_cons_cons, List.mem_cons, not_or, List.tail_cons] at ha hb
      obtain ⟨hxy, hrest⟩ := List.isChain_cons_cons.1 hxs
      refine List.isChain_cons_cons.2 ⟨⟨?_, ?_⟩, ih hrest ha.2 hb.2⟩
      · rw [link_next_of_ne (Ne.symm ha.1), hxy.1]
      · rw [link_prev_of_ne (Ne.symm hb.1), hxy.2]

namespace Ring

/-- A node goes into the circle, between the two neighbours of a cut. -/
theorem insert (hr : s.Ring h (xs ++ ys)) (he : e ∉ h :: (xs ++ ys)) (hp : h :: xs = ps ++ [p]) (hn : ys ++ [h] = n :: ns) :
    (s.insert e p n).Ring h (xs ++ e :: ys) := by
  obtain ⟨hfront, hback, -, -⟩ := hr.cut hp hn
  obtain ⟨hps, hpys, hnxs, hns⟩ := hr.apart hp hn
  simp only [List.mem_cons, List.mem_append, not_or] at he
  have heps : e ∉ ps ++ [p] := by
    rw [← hp]
    simp [he]
  have hens : e ∉ n :: ns := by
    rw [← hn]
    simp [he]
  have htail : (ps ++ [p]).tail = xs := by rw [← hp, List.tail_cons]
  have hlast : (n :: ns).dropLast = ys := by rw [← hn, List.dropLast_concat]
  simp only [List.mem_append, not_or, List.mem_cons] at heps hens
  refine ⟨?_, ?_⟩
  · have hfront' : (s.insert e p n).Linked (ps ++ [p]) := by
      refine (hfront.link ?_ ?_).link ?_ ?_
      · simp [heps]
      · rwa [htail]
      · simpa using hps
      · rw [htail]
        exact he.2.1
    have hback' : (s.insert e p n).Linked (n :: ns) := by
      refine (hback.link ?_ ?_).link ?_ ?_
      · rw [hlast]
        exact he.2.2
      · simpa using hns
      · rwa [hlast]
      · simpa using hens.2
    have hnext : (s.insert e p n).next e = n := by
      rw [Store.insert, link_next_of_ne (by simpa using heps.2), link_next]
    have hprev : (s.insert e p n).prev n = e := by
      rw [Store.insert, link_prev_of_ne (Ne.symm hens.1), link_prev]
    have hright : (s.insert e p n).Linked ([e] ++ n :: ns) :=
      Linked.append (show (s.insert e p n).Linked ([] ++ [e]) from List.isChain_singleton e) hback' hnext hprev
    have hall := hfront'.append hright (link_next _ _ _) (link_prev _ _ _)
    rw [← hp, ← hn] at hall
    simpa using hall
  · have hperm : (h :: (xs ++ e :: ys)).Perm (e :: h :: (xs ++ ys)) :=
      (List.Perm.cons h List.perm_middle).trans (List.Perm.swap e h _)
    refine hperm.nodup_iff.2 (List.nodup_cons.2 ⟨?_, hr.nodup⟩)
    simp [he]

/-- A node of the circle stands between its two addresses, and goes out when these are linked. -/
theorem remove (hr : s.Ring h (xs ++ e :: ys)) :
    (s.remove (s.prev e) (s.next e)).Ring h (xs ++ ys) := by
  obtain ⟨ps, p, n, ns, hp, hn⟩ := exists_cut h xs ys
  have hr' : s.Ring h (xs ++ [e] ++ ys) := by simpa using hr
  have hfrom : e :: ys ++ [h] = e :: (ys ++ [h]) := rfl
  have hupto : h :: (xs ++ [e]) = h :: xs ++ [e] := rfl
  obtain ⟨hfront, -, -, hprev⟩ := hr.cut hp hfrom
  obtain ⟨-, hback, hnext, -⟩ := hr'.cut hupto hn
  obtain ⟨hps, -, -, -⟩ := hr.apart hp hfrom
  obtain ⟨-, -, hnxs, hns⟩ := hr'.apart hupto hn
  have hsub : (h :: (xs ++ ys)).Sublist (h :: (xs ++ e :: ys)) :=
    List.Sublist.cons_cons h ((List.Sublist.refl xs).append (List.sublist_cons_self e ys))
  rw [hprev, hnext]
  refine ⟨?_, hr.nodup.sublist hsub⟩
  have hpys : p ∉ ys := by
    intro hin
    have hnodup := hr.nodup.sublist hsub
    rw [← List.cons_append, hp] at hnodup
    exact (List.disjoint_of_nodup_append hnodup) (by simp) hin
  have htail : (ps ++ [p]).tail = xs := by rw [← hp, List.tail_cons]
  have hlast : (n :: ns).dropLast = ys := by rw [← hn, List.dropLast_concat]
  have hfront' : (s.remove p n).Linked (ps ++ [p]) := by
    refine hfront.link ?_ ?_
    · simpa using hps
    · rw [htail]
      exact fun hin => hnxs (List.mem_append_left _ hin)
  have hback' : (s.remove p n).Linked (n :: ns) := by
    refine hback.link ?_ ?_
    · rwa [hlast]
    · simpa using hns
  have hall := hfront'.append hback' (link_next _ _ _) (link_prev _ _ _)
  rwa [← hp, ← hn, ← List.append_assoc, List.cons_append] at hall

/-- A link from and to nodes that are not in the circle leaves it alone. -/
theorem link {a b : α} (hr : s.Ring h xs) (ha : a ∉ h :: xs) (hb : b ∉ h :: xs) : (s.link a b).Ring h xs := by
  refine ⟨hr.linked.link ?_ ?_, hr.nodup⟩
  · rwa [List.dropLast_concat]
  · simp only [List.mem_cons, not_or] at hb
    simp [hb]

end Ring

end Store

end Links
