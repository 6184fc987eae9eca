import Mathlib.Data.List.Lemmas
import Mathlib.Data.List.Perm.Subperm
import Hoe.MainLoop

/-!
# Lists of entries

The entries of a list of unix.c, in its order: an entry goes in at the head, is found from the head on, and goes out wherever it
stands. The other list stays as it is.
-/

namespace Hoe

open Links

namespace MainLoop

variable {κ : Type} {l : Loop κ} {head : Node} {ns : List Nat} {es : List (Entry κ)} {e : Entry κ} {n : Nat}

/-- The node is the head of a list. -/
def Node.IsHead : Node → Prop
  | .entry _ => False
  | _ => True

theorem Node.IsHead.ne_entry (hhead : head.IsHead) (n : Nat) : head ≠ .entry n := by
  rintro rfl
  exact hhead

/-- The head of a list is none of its entries. -/
theorem notMem_entries (hhead : head.IsHead) (ns : List Nat) : head ∉ ns.map Node.entry := by
  intro hmem
  obtain ⟨n, -, hn⟩ := List.mem_map.1 hmem
  exact hhead.ne_entry n hn.symm

theorem entry_mem_iff : Node.entry n ∈ ns.map Node.entry ↔ n ∈ ns := by simp

/-- The entry of a handler of a process. -/
def pidEntry (p : Int × κ) : Entry κ := .pidHandler p.1 p.2

namespace Loop

/-- The entries of the list of the head stand at these addresses. -/
structure Lists (l : Loop κ) (head : Node) (ns : List Nat) (es : List (Entry κ)) : Prop where
  isHead : head.IsHead
  ring : l.links.Ring head (ns.map .entry)
  entries : List.Forall₂ (fun n e => l.entries[n]?.join = some e) ns es

/-- One list changes. The lists of other heads stay, if they share no entry with it, and so do all entries that are in no list. -/
structure Keeps (l l' : Loop κ) (head : Node) (ns ns' : List Nat) : Prop where
  lists : ∀ head' ms es, head' ≠ head → ns.Disjoint ms → l.Lists head' ms es → l'.Lists head' ms es
  entries : ∀ n e, n ∉ ns → l.entries[n]?.join = some e → l'.entries[n]?.join = some e
  added : ∀ n ∈ ns', n ∈ ns ∨ l.entries[n]?.join = none

/-- Other links and entries. -/
def withLists (l : Loop κ) (links : Store Node) (entries : List (Option (Entry κ))) : Loop κ :=
  { l with links := links, entries := entries }

theorem Keeps.refl (l : Loop κ) (head : Node) (ns : List Nat) : l.Keeps l head ns ns :=
  ⟨fun _ _ _ _ _ hl => hl, fun _ _ _ he => he, fun _ hn => .inl hn⟩

/-- Over two steps the entries that both keep are kept. -/
theorem Keeps.trans {l' l'' : Loop κ} {ns₁ ns₂ ns₃ : List Nat} (h : l.Keeps l' head ns₁ ns₂) (h' : l'.Keeps l'' head ns₂ ns₃)
    (hsub : ns₂ ⊆ ns₁) : l.Keeps l'' head ns₁ ns₃ := by
  refine ⟨?_, ?_, ?_⟩
  · intro head' ms es hne hdisj hl
    exact h'.lists head' ms es hne (fun _ hn hn' => hdisj (hsub hn) hn') (h.lists head' ms es hne hdisj hl)
  · intro n e hn he
    exact h'.entries n e (fun hmem => hn (hsub hmem)) (h.entries n e hn he)
  · intro n hn
    rcases h'.added n hn with hmem | hnone
    · exact .inl (hsub hmem)
    · by_contra hnot
      push Not at hnot
      obtain ⟨e, he⟩ := Option.ne_none_iff_exists'.1 hnot.2
      rw [h.entries n e hnot.1 he] at hnone
      cases hnone

/-- An entry that is in memory can be read. -/
theorem entry_eq (h : l.entries[n]?.join = some e) : l.entry (.entry n) = .ok e := by simp [entry, h]

theorem next_eq {node : Node} (h : l.alive node) : l.next node = .ok (l.links.next node) := if_pos h

theorem alive_of_entry (h : l.entries[n]?.join = some e) : l.alive (.entry n) := by simp [alive, h]

/-- The heads are never freed. -/
theorem alive_of_isHead (hhead : head.IsHead) : l.alive head := by
  cases head with
  | entry n => exact hhead.elim
  | bottomHalves => rfl
  | pidHandlers => rfl

namespace Lists

/-- Each address in a list is that of an entry. -/
theorem entry_of_mem (hl : l.Lists head ns es) (hn : n ∈ ns) : ∃ e ∈ es, l.entries[n]?.join = some e := by
  obtain ⟨i, hi, rfl⟩ := List.getElem_of_mem hn
  have hi' : i < es.length := hl.entries.length_eq ▸ hi
  exact ⟨es[i], List.getElem_mem hi', hl.entries.get hi hi'⟩

/-- The head of a list and its entries are in memory. -/
theorem alive (hl : l.Lists head ns es) {node : Node} (hnode : node ∈ head :: ns.map .entry) : l.alive node := by
  rcases List.mem_cons.1 hnode with rfl | hmem
  · exact alive_of_isHead hl.isHead
  · obtain ⟨n, hn, rfl⟩ := List.mem_map.1 hmem
    obtain ⟨e, -, he⟩ := hl.entry_of_mem hn
    exact alive_of_entry he

theorem lt_length (hl : l.Lists head ns es) (hn : n ∈ ns) : n < l.entries.length := by
  obtain ⟨e, -, he⟩ := hl.entry_of_mem hn
  by_contra hlt
  rw [List.getElem?_eq_none (Nat.le_of_not_lt hlt)] at he
  cases he

/-- No entry is in the list twice. -/
theorem nodup (hl : l.Lists head ns es) : ns.Nodup :=
  (List.nodup_map_iff fun _ _ => Node.entry.inj).1 (List.nodup_cons.1 hl.ring.nodup).2

/-- A list is no longer than there are entries. -/
theorem length_le (hl : l.Lists head ns es) : ns.length ≤ l.entries.length := by
  have hsub : ns ⊆ List.range l.entries.length := fun n hn => List.mem_range.2 (hl.lt_length hn)
  simpa using (List.subperm_of_subset hl.nodup hsub).length_le

end Lists

/-- The first entry of a list, or its head. -/
def first (head : Node) : List Nat → Node
  | [] => head
  | n :: _ => .entry n

/-- The last one. -/
def last (head : Node) (ns : List Nat) : Node := (ns.getLast?.map .entry).getD head

theorem last_concat (head : Node) (ns : List Nat) (n : Nat) : last head (ns ++ [n]) = .entry n := by simp [last]

/-- The head points to the first node. -/
theorem exists_first (head : Node) (ns : List Nat) : ∃ ms, ns.map Node.entry ++ [head] = first head ns :: ms := by
  cases ns with
  | nil => exact ⟨[], rfl⟩
  | cons n ns => exact ⟨ns.map .entry ++ [head], rfl⟩

/-- Back from the head is the last node. -/
theorem exists_last (head : Node) (ns : List Nat) : ∃ ps, head :: ns.map Node.entry = ps ++ [last head ns] := by
  rcases List.eq_nil_or_concat' ns with rfl | ⟨ns, n, rfl⟩
  · exact ⟨[], rfl⟩
  · exact ⟨head :: ns.map .entry, by simp [last_concat]⟩

theorem first_mem (head : Node) (ns : List Nat) : first head ns ∈ head :: ns.map .entry := by
  cases ns <;> simp [first]

theorem last_mem (head : Node) (ns : List Nat) : last head ns ∈ head :: ns.map .entry := by
  obtain ⟨ps, hps⟩ := exists_last head ns
  rw [hps]
  simp

namespace Lists

variable {ns₁ ns₂ : List Nat}

/-- The two entries at a place of the list. -/
theorem neighbours (hl : l.Lists head (ns₁ ++ ns₂) es) :
    l.links.next (last head ns₁) = first head ns₂ ∧ l.links.prev (first head ns₂) = last head ns₁ := by
  obtain ⟨ps, hps⟩ := exists_last head ns₁
  obtain ⟨ms, hms⟩ := exists_first head ns₂
  have hring := hl.ring
  rw [List.map_append] at hring
  obtain ⟨-, -, hnext, hprev⟩ := hring.cut hps hms
  exact ⟨hnext, hprev⟩

/-- Forward from the head is the first entry. -/
theorem next_head (hl : l.Lists head ns es) : l.links.next head = first head ns := by
  have hl' : l.Lists head ([] ++ ns) es := hl
  exact hl'.neighbours.1

/-- Forward from an entry is the one behind it, or the head. -/
theorem next_entry (hl : l.Lists head (ns₁ ++ n :: ns₂) es) : l.links.next (.entry n) = first head ns₂ := by
  have hl' : l.Lists head (ns₁ ++ [n] ++ ns₂) es := by simpa using hl
  have hnext := hl'.neighbours.1
  rwa [last_concat] at hnext

/-- Back from an entry is the one in front, or the head. -/
theorem prev_entry (hl : l.Lists head (ns₁ ++ n :: ns₂) es) : l.links.prev (.entry n) = last head ns₁ := hl.neighbours.2

theorem prev_head (hl : l.Lists head (ns ++ [n]) es) : l.links.prev head = .entry n := by
  have hl' : l.Lists head (ns ++ [n] ++ []) es := by simpa using hl
  have hprev := hl'.neighbours.2
  rwa [last_concat] at hprev

/-- A list is in the links and the entries. -/
theorem congr {l' : Loop κ} (hl : l.Lists head ns es) (hlinks : l'.links = l.links) (hentries : l'.entries = l.entries) :
    l'.Lists head ns es :=
  ⟨hl.isHead, hlinks ▸ hl.ring, hentries ▸ hl.entries⟩

/-- A list that shares no entry with another one shares no node with it. -/
theorem notMem_of_disjoint {head' : Node} {ns' : List Nat} {es' : List (Entry κ)} {node : Node} (hl : l.Lists head ns es)
    (hl' : l.Lists head' ns' es') (hne : head' ≠ head) (hdisj : ns.Disjoint ns') (hnode : node ∈ head :: ns.map .entry) :
    node ∉ head' :: ns'.map .entry := by
  intro hnode'
  rcases List.mem_cons.1 hnode with rfl | hmem
  · rcases List.mem_cons.1 hnode' with rfl | hmem'
    · exact hne rfl
    · exact notMem_entries hl.isHead ns' hmem'
  · obtain ⟨m, hm, rfl⟩ := List.mem_map.1 hmem
    rcases List.mem_cons.1 hnode' with heq | hmem'
    · exact hl'.isHead.ne_entry m heq.symm
    · exact hdisj hm (entry_mem_iff.1 hmem')

end Lists

/-! ## Inserting -/

/-- A new entry is in no list. -/
theorem Lists.notMem_fresh (hl : l.Lists head ns es) : Node.entry l.entries.length ∉ head :: ns.map .entry := by
  simp only [List.mem_cons, entry_mem_iff, not_or]
  exact ⟨(hl.isHead.ne_entry _).symm, fun hmem => absurd (hl.lt_length hmem) (Nat.lt_irrefl _)⟩

/-- A new entry leaves the others where they are. -/
theorem entry_append {entries : List (Option (Entry κ))} (h : entries[n]?.join = some e) (o : Option (Entry κ)) :
    (entries ++ [o])[n]?.join = some e := by
  by_cases hlt : n < entries.length
  · rwa [List.getElem?_append_left hlt]
  · rw [List.getElem?_eq_none (Nat.le_of_not_lt hlt)] at h
    cases h

/-- `malloc` and `list_add`. -/
theorem Lists.listAdd (hl : l.Lists head ns es) (e : Entry κ) :
    ∃ s, (l.malloc e).1.listAdd (l.malloc e).2 head = .ok (l.withLists s (l.entries ++ [some e])) ∧
      (l.withLists s (l.entries ++ [some e])).Lists head (l.entries.length :: ns) (e :: es) ∧
        l.Keeps (l.withLists s (l.entries ++ [some e])) head ns (l.entries.length :: ns) := by
  obtain ⟨ms, hms⟩ := exists_first head ns
  refine ⟨l.links.insert (.entry l.entries.length) head (first head ns), ?_, ⟨hl.isHead, ?_, ?_⟩, ?_, fun _ _ _ h => entry_append h _, ?_⟩
  · have hnew : (l.malloc e).1.alive (.entry l.entries.length) := alive_of_entry (e := e) (by simp [malloc])
    have hbehind : (l.malloc e).1.alive (l.links.next head) := by
      rw [hl.next_head]
      cases ns with
      | nil => exact alive_of_isHead hl.isHead
      | cons n ns =>
        obtain ⟨e', -, he'⟩ := hl.entry_of_mem (n := n) (by simp)
        exact alive_of_entry (entry_append he' _)
    rw [← hl.next_head]
    exact if_pos ⟨hnew, hbehind⟩
  · have hring : l.links.Ring head ([] ++ ns.map .entry) := hl.ring
    exact hring.insert hl.notMem_fresh (List.nil_append [head]).symm hms
  · exact List.Forall₂.cons (by simp [withLists]) (hl.entries.imp fun _ _ h => entry_append h _)
  · intro head' ns' es' hne hdisj hl'
    have hout : ∀ node ∈ head :: ns.map Node.entry, node ∉ head' :: ns'.map .entry :=
      fun node => hl.notMem_of_disjoint hl' hne hdisj
    exact ⟨hl'.isHead, (hl'.ring.link hl'.notMem_fresh (hout _ (first_mem head ns))).link (hout _ (by simp)) hl'.notMem_fresh,
      hl'.entries.imp fun _ _ h => entry_append h _⟩
  · intro n hn
    rcases List.mem_cons.1 hn with rfl | hmem
    · exact .inr (by simp)
    · exact .inl hmem

/-! ## Deleting -/

/-- A change of an entry leaves the others as they are. -/
theorem entry_set {entries : List (Option (Entry κ))} {m : Nat} (hne : n ≠ m) (o : Option (Entry κ)) :
    (entries.set m o)[n]? = entries[n]? := List.getElem?_set_ne hne.symm

theorem append_subset (ns₁ : List Nat) (n : Nat) (ns₂ : List Nat) : ns₁ ++ ns₂ ⊆ ns₁ ++ n :: ns₂ :=
  ((List.Sublist.refl ns₁).append (List.sublist_cons_self n ns₂)).subset

/-- The entries in front of one, that one, and those behind it. -/
theorem Lists.split {ns₁ ns₂ : List Nat} {es₁ es₂ : List (Entry κ)} (hl : l.Lists head (ns₁ ++ n :: ns₂) (es₁ ++ e :: es₂))
    (hlen : ns₁.length = es₁.length) :
    List.Forall₂ (fun n e => l.entries[n]?.join = some e) ns₁ es₁ ∧ l.entries[n]?.join = some e ∧
      List.Forall₂ (fun n e => l.entries[n]?.join = some e) ns₂ es₂ := by
  have htake := List.forall₂_take ns₁.length hl.entries
  have hdrop := List.forall₂_drop ns₁.length hl.entries
  rw [List.take_left, hlen, List.take_left] at htake
  rw [List.drop_left, hlen, List.drop_left] at hdrop
  exact ⟨htake, List.forall₂_cons.1 hdrop⟩

/-- `list_del`, which leaves the entry. -/
theorem Lists.listDel {ns₁ ns₂ : List Nat} {es₁ es₂ : List (Entry κ)} (hl : l.Lists head (ns₁ ++ n :: ns₂) (es₁ ++ e :: es₂))
    (hlen : ns₁.length = es₁.length) :
    ∃ s, l.listDel (.entry n) = .ok (l.withLists s l.entries) ∧ (l.withLists s l.entries).Lists head (ns₁ ++ ns₂) (es₁ ++ es₂) ∧
      l.Keeps (l.withLists s l.entries) head (ns₁ ++ n :: ns₂) (ns₁ ++ ns₂) := by
  have hprev := hl.prev_entry
  have hnext := hl.next_entry
  have hsub : ∀ node, node ∈ head :: ns₁.map Node.entry ∨ node ∈ head :: ns₂.map Node.entry →
      node ∈ head :: (ns₁ ++ n :: ns₂).map .entry := by
    intro node
    simp only [List.map_append, List.map_cons, List.mem_cons, List.mem_append]
    tauto
  have hlast := hsub _ (.inl (last_mem head ns₁))
  have hfirst := hsub _ (.inr (first_mem head ns₂))
  obtain ⟨h₁, hn, h₂⟩ := hl.split hlen
  refine ⟨l.links.remove (l.links.prev (.entry n)) (l.links.next (.entry n)), ?_, ⟨hl.isHead, ?_, List.rel_append h₁ h₂⟩, ?_, fun _ _ _ he => he,
    fun _ hmem => .inl (append_subset ns₁ n ns₂ hmem)⟩
  · refine if_pos ⟨alive_of_entry hn, ?_, ?_⟩
    · rw [hprev]
      exact hl.alive hlast
    · rw [hnext]
      exact hl.alive hfirst
  · have hring := hl.ring
    rw [List.map_append, List.map_cons] at hring
    rw [List.map_append]
    exact hring.remove
  · intro head' ns' es' hne hdisj hl'
    refine ⟨hl'.isHead, hl'.ring.link ?_ ?_, hl'.entries⟩
    · rw [hprev]
      exact hl.notMem_of_disjoint hl' hne hdisj hlast
    · rw [hnext]
      exact hl.notMem_of_disjoint hl' hne hdisj hfirst

/-- An entry is freed that is not in the list. -/
theorem Lists.free (hl : l.Lists head ns es) (hn : n ∉ ns) : (l.withLists l.links (l.entries.set n none)).Lists head ns es := by
  refine ⟨hl.isHead, hl.ring, ?_⟩
  have hkept : List.Forall₂ (fun m e => m ∈ ns ∧ l.entries[m]?.join = some e) ns es :=
    (List.forall₂_iff_zip.2 ⟨hl.entries.length_eq, fun hmem => ⟨(List.of_mem_zip hmem).1, (List.forall₂_iff_zip.1 hl.entries).2 hmem⟩⟩)
  refine hkept.imp fun m e hm => ?_
  have hne : m ≠ n := fun heq => hn (heq ▸ hm.1)
  change (l.entries.set n none)[m]?.join = some e
  rw [entry_set hne]
  exact hm.2

/-- `list_del` and `free`. -/
theorem Lists.listDel_free {ns₁ ns₂ : List Nat} {es₁ es₂ : List (Entry κ)}
    (hl : l.Lists head (ns₁ ++ n :: ns₂) (es₁ ++ e :: es₂)) (hlen : ns₁.length = es₁.length) :
    ∃ s, ((l.listDel (.entry n)).bind fun l => l.free (.entry n)) = .ok (l.withLists s (l.entries.set n none)) ∧
      (l.withLists s (l.entries.set n none)).Lists head (ns₁ ++ ns₂) (es₁ ++ es₂) ∧
        l.Keeps (l.withLists s (l.entries.set n none)) head (ns₁ ++ n :: ns₂) (ns₁ ++ ns₂) := by
  obtain ⟨s, hs, hl₁, hkeeps⟩ := hl.listDel hlen
  obtain ⟨-, hn, -⟩ := hl.split hlen
  have hout := (List.nodup_cons.1 (List.nodup_middle.1 hl.nodup)).1
  refine ⟨s, ?_, hl₁.free hout, ?_, ?_, hkeeps.added⟩
  · rw [hs]
    exact if_pos (alive_of_entry (e := e) hn)
  · intro head' ns' es' hne hdisj hl'
    refine (hkeeps.lists head' ns' es' hne hdisj hl').free fun hmem => hdisj ?_ hmem
    simp
  · intro m e' hm he'
    have hne : m ≠ n := by
      rintro rfl
      simp at hm
    exact (congrArg Option.join (entry_set hne none)).trans he'

/-! ## The loops over the lists -/

/-- What the loop of `set_pid_handler` does from an entry on. -/
theorem deletePid_eq (pid : Int) {fuel : Nat} {ns₁ ns₂ : List Nat} {hs₁ hs₂ : List (Int × κ)}
    (hl : l.Lists .pidHandlers (ns₁ ++ ns₂) ((hs₁ ++ hs₂).map pidEntry)) (hlen : ns₁.length = hs₁.length)
    (hfuel : ns₂.length < fuel) :
    ∃ s entries ns, deletePid pid fuel (first .pidHandlers ns₂) l = .ok (l.withLists s entries) ∧
      (l.withLists s entries).Lists .pidHandlers ns ((hs₁ ++ hs₂.eraseP fun p => p.1 == pid).map pidEntry) ∧
        l.Keeps (l.withLists s entries) .pidHandlers (ns₁ ++ ns₂) ns := by
  have hlen₂ : ns₂.length = hs₂.length := by
    have hall := hl.entries.length_eq
    simp only [List.length_append, List.length_map, hlen] at hall
    exact Nat.add_left_cancel hall
  induction hs₂ generalizing fuel ns₁ ns₂ hs₁ with
  | nil =>
    obtain rfl := List.length_eq_zero_iff.1 hlen₂
    obtain ⟨fuel, rfl⟩ := Nat.exists_eq_succ_of_ne_zero (Nat.ne_of_gt hfuel)
    exact ⟨l.links, l.entries, _, if_pos rfl, hl, Keeps.refl l _ _⟩
  | cons p hs₂ ih =>
    obtain ⟨n, ns₂, rfl⟩ := List.exists_cons_of_length_eq_add_one hlen₂
    obtain ⟨fuel, rfl⟩ := Nat.exists_eq_succ_of_ne_zero (Nat.ne_of_gt (Nat.zero_lt_of_lt hfuel))
    have hl' : l.Lists .pidHandlers (ns₁ ++ n :: ns₂) (hs₁.map pidEntry ++ pidEntry p :: hs₂.map pidEntry) := by simpa using hl
    have hlen' : ns₁.length = (hs₁.map pidEntry).length := by simpa using hlen
    obtain ⟨-, hn, -⟩ := hl'.split hlen'
    rw [first, deletePid, if_neg Node.noConfusion, entry_eq hn]
    change ∃ s entries ns, (if p.1 = pid then _ else _) = _ ∧ _
    by_cases hp : p.1 = pid
    · obtain ⟨s, hs, hdel, hkeeps⟩ := hl'.listDel_free hlen'
      refine ⟨s, _, ns₁ ++ ns₂, (if_pos hp).trans hs, ?_, hkeeps⟩
      rwa [List.eraseP_cons_of_pos (by simpa using hp), List.map_append]
    · have hin : Node.entry n ∈ Node.pidHandlers :: (ns₁ ++ n :: ns₂).map .entry := by simp
      rw [if_neg hp, next_eq (hl'.alive hin), hl'.next_entry]
      have hl'' : l.Lists .pidHandlers (ns₁ ++ [n] ++ ns₂) ((hs₁ ++ [p] ++ hs₂).map pidEntry) := by simpa using hl
      obtain ⟨s, entries, ns, hrun, hlists, hkeeps⟩ := ih hl'' (by simpa using hlen) (Nat.lt_of_succ_lt_succ hfuel)
        (Nat.succ.inj hlen₂)
      refine ⟨s, entries, ns, hrun, ?_, ?_⟩
      · rw [List.eraseP_cons_of_neg (by simpa using hp)]
        simpa using hlists
      · simpa using hkeeps

/-- What the loop of `unregister_bottom_half` does from an entry on. -/
theorem unregisterLoop_eq [DecidableEq κ] (cb : κ) {fuel : Nat} {ns₁ ns₂ : List Nat} {q₁ q₂ : List κ} {bh1 : Node}
    (hl : l.Lists .bottomHalves (ns₁ ++ ns₂) ((q₁ ++ q₂).map .bottomHalf)) (hlen : ns₁.length = q₁.length)
    (hfuel : ns₂.length < fuel) (hbh1 : ns₂ ≠ [] → bh1 = first .bottomHalves ns₂.tail) :
    ∃ s entries ns, unregisterLoop cb fuel (first .bottomHalves ns₂) bh1 l = .ok (l.withLists s entries) ∧
      (l.withLists s entries).Lists .bottomHalves ns ((q₁ ++ q₂.filter (· != cb)).map .bottomHalf) ∧
        l.Keeps (l.withLists s entries) .bottomHalves (ns₁ ++ ns₂) ns := by
  have hlen₂ : ns₂.length = q₂.length := by
    have hall := hl.entries.length_eq
    simp only [List.length_append, List.length_map, hlen] at hall
    exact Nat.add_left_cancel hall
  induction q₂ generalizing l fuel ns₁ ns₂ q₁ bh1 with
  | nil =>
    obtain rfl := List.length_eq_zero_iff.1 hlen₂
    obtain ⟨fuel, rfl⟩ := Nat.exists_eq_succ_of_ne_zero (Nat.ne_of_gt hfuel)
    exact ⟨l.links, l.entries, _, if_pos rfl, hl, Keeps.refl l _ _⟩
  | cons x q₂ ih =>
    obtain ⟨n, ns₂, rfl⟩ := List.exists_cons_of_length_eq_add_one hlen₂
    obtain ⟨fuel, rfl⟩ := Nat.exists_eq_succ_of_ne_zero (Nat.ne_of_gt (Nat.zero_lt_of_lt hfuel))
    have hbh1 : bh1 = first .bottomHalves ns₂ := hbh1 (List.cons_ne_nil n ns₂)
    have hl' : l.Lists .bottomHalves (ns₁ ++ n :: ns₂) (q₁.map .bottomHalf ++ .bottomHalf x :: q₂.map .bottomHalf) := by
      simpa using hl
    have hlen' : ns₁.length = (q₁.map Entry.bottomHalf).length := by simpa using hlen
    obtain ⟨-, hn, -⟩ := hl'.split hlen'
    -- what is behind the next entry is read in the list that is left
    have hnext : ∀ {l' : Loop κ} {ns : List Nat} {es : List (Entry κ)}, l'.Lists .bottomHalves (ns ++ ns₂) es →
        ∃ bh2, l'.next bh1 = .ok bh2 ∧ (ns₂ ≠ [] → bh2 = first .bottomHalves ns₂.tail) := by
      intro l' ns es hl'
      have hin : bh1 ∈ Node.bottomHalves :: (ns ++ ns₂).map .entry := by
        have hmem := first_mem .bottomHalves ns₂
        rw [hbh1]
        simp only [List.mem_cons, List.map_append, List.mem_append] at hmem ⊢
        tauto
      refine ⟨_, next_eq (hl'.alive hin), fun hne => ?_⟩
      obtain ⟨m, ms, rfl⟩ := List.exists_cons_of_ne_nil hne
      rw [hbh1]
      exact hl'.next_entry
    rw [first, unregisterLoop, if_neg Node.noConfusion, entry_eq hn]
    change ∃ s entries ns, (if Entry.bottomHalf x = .bottomHalf cb then _ else _ : Except LoopFault (Loop κ)).bind _ = _ ∧ _
    by_cases hx : x = cb
    · obtain ⟨s, hs, hdel, hkeeps⟩ := hl'.listDel_free hlen'
      rw [← List.map_append] at hdel
      obtain ⟨bh2, hbh2, htail⟩ := hnext hdel
      obtain ⟨s', entries, ns, hrun, hlists, hkeeps'⟩ := ih hdel hlen (Nat.lt_of_succ_lt_succ hfuel) htail (Nat.succ.inj hlen₂)
      rw [if_pos (congrArg Entry.bottomHalf hx), hs]
      change ∃ s entries ns, (Loop.next _ bh1).bind _ = _ ∧ _
      rw [hbh2, hbh1]
      refine ⟨s', entries, ns, hrun, ?_, hkeeps.trans hkeeps' ?_⟩
      · rw [List.filter_cons_of_neg (by simpa using hx)]
        exact hlists
      · exact append_subset ns₁ n ns₂
    · have hl'' : l.Lists .bottomHalves (ns₁ ++ [n] ++ ns₂) ((q₁ ++ [x] ++ q₂).map .bottomHalf) := by simpa using hl
      obtain ⟨bh2, hbh2, htail⟩ := hnext hl''
      obtain ⟨s, entries, ns, hrun, hlists, hkeeps⟩ := ih hl'' (by simpa using hlen) (Nat.lt_of_succ_lt_succ hfuel) htail
        (Nat.succ.inj hlen₂)
      rw [if_neg fun heq => hx (Entry.bottomHalf.inj heq)]
      change ∃ s entries ns, (Loop.next _ bh1).bind _ = _ ∧ _
      rw [hbh2, hbh1]
      refine ⟨s, entries, ns, hrun, ?_, ?_⟩
      · rw [List.filter_cons_of_pos (by simpa using hx)]
        simpa using hlists
      · simpa using hkeeps

end Loop

end MainLoop

end Hoe
