import Hoe.Lemmas.MainLoop

/-!
# The main loop over plain lists

What the loop has to do, without links and entries: the bottom halves that wait, the callbacks of processes, and the handlers of
descriptors. The loop of unix.c ends in the same way, with the same callbacks and the same faults, and it never comes to an entry
that was freed.
-/

namespace Hoe

open Links Outcome

namespace MainLoop

variable {κ σ : Type} [DecidableEq κ]

/-- What waits, the newest first: the bottom halves, and the callbacks of processes. -/
structure Agenda (κ : Type) where
  queue : List κ
  pids : List (Int × κ)
  handlers : Way → Nat → Option κ
  fdmax : Int
  exitRequest : Bool
  trace : List (LoopEvent κ)

namespace Agenda

/-- Nothing waits. -/
def start : Agenda κ where
  queue := []
  pids := []
  handlers := fun _ _ => none
  fdmax := -1
  exitRequest := false
  trace := []

/-- The descriptors that have a handler. -/
def fds (a : Agenda κ) (way : Way) (fd : Nat) : Bool := (a.handlers way fd).isSome

/-- The handler of a descriptor. -/
def setHandler (way : Way) (a : Agenda κ) (fd : Nat) (cb : Option κ) : Except LoopFault (Agenda κ) :=
  if fd < maxHandlers then
    .ok { a with
      handlers := Function.update a.handlers way (Function.update (a.handlers way) fd cb)
      fdmax := if cb.isSome ∧ a.fdmax ≤ fd then fd else a.fdmax }
  else .error .outside

/-- A call of a callback is made. -/
def ask (a : Agenda κ) : LoopCall κ → Except LoopFault (Agenda κ)
  | .setReadHandler fd cb => a.setHandler .read fd cb
  | .setWriteHandler fd cb => a.setHandler .write fd cb
  | .setPidHandler pid none => .ok { a with pids := a.pids.eraseP fun p => p.1 == pid }
  | .setPidHandler pid (some cb) => .ok { a with pids := (pid, cb) :: a.pids }
  | .registerBottomHalf cb => .ok { a with queue := cb :: a.queue, trace := a.trace ++ [.registered cb] }
  | .unregisterBottomHalf cb => .ok { a with queue := a.queue.filter (· != cb), trace := a.trace ++ [.unregistered cb] }
  | .urlExit => .ok { a with exitRequest := true }

/-- The calls of a callback. -/
def askAll (a : Agenda κ) : List (LoopCall κ) → Except LoopFault (Agenda κ)
  | [] => .ok a
  | c :: cs => (a.ask c).bind fun a => askAll a cs

/-- What a callback does. -/
def perform (a : Agenda κ) (t : Turn κ σ) : Except LoopFault (Agenda κ × σ) :=
  (a.askAll t.calls).bind fun a => t.result.map fun w => (a, w)

end Agenda

namespace Client

variable (c : Client κ σ)

/-- A callback is called. -/
def serve (cb : κ) (status : Int) (s : Agenda κ × σ) : Except LoopFault (Agenda κ × σ) := s.1.perform (c.body cb status s.2)

/-- The oldest bottom half is called as long as there is one. -/
def drain : Nat → Agenda κ × σ → Except LoopFault (Agenda κ × σ)
  | 0, _ => .error .cut
  | fuel + 1, s =>
    match s.1.queue.getLast? with
    | none => .ok s
    | some cb => (c.serve cb 0 ({ s.1 with queue := s.1.queue.dropLast, trace := s.1.trace ++ [.called cb] }, s.2)).bind (drain fuel)

/-- A descriptor that is ready is handled. -/
def serveFd (fuel : Nat) (ready : Way → Nat → Bool) (way : Way) (i : Nat) (s : Agenda κ × σ) : Except LoopFault (Agenda κ × σ) :=
  if ready way i then
    match s.1.handlers way i with
    | none => .error .null
    | some cb => (c.serve cb 0 s).bind (c.drain fuel)
  else .ok s

/-- The descriptors that are ready are handled, `n` of them at most. -/
def serveFds (fuel : Nat) (ready : Way → Nat → Bool) : Nat → Nat → Agenda κ × σ → Except LoopFault (Agenda κ × σ)
  | 0, _, s => .ok s
  | n + 1, i, s =>
    if (i : Int) ≤ s.1.fdmax then
      (c.serveFd fuel ready .read i s).bind fun s =>
        (c.serveFd fuel ready .write i s).bind fun s => serveFds fuel ready n (i + 1) s
    else .ok s

/-- The newest callback of a process that ended is called. -/
def servePid (fuel : Nat) (pid status : Int) (s : Agenda κ × σ) : Except LoopFault (Agenda κ × σ) :=
  match s.1.pids.find? fun p => p.1 == pid with
  | none => .ok s
  | some p => (c.serve p.2 status s).bind (c.drain fuel)

/-- The processes that ended are handled. -/
def servePids (fuel : Nat) : Nat → Agenda κ × σ → Except LoopFault (Agenda κ × σ)
  | 0, _ => .error .cut
  | n + 1, s =>
    if s.1.pids = [] then .ok s
    else
      match c.waitpid s.2 with
      | (none, w) => .ok (s.1, w)
      | (some (pid, status), w) => (c.servePid fuel pid status (s.1, w)).bind (servePids fuel n)

/-- One round. -/
def round (fuel : Nat) (s : Agenda κ × σ) : Except LoopFault (Agenda κ × σ) :=
  let answer := c.select s.1.fds s.2
  let ready := fun way fd => s.1.fds way fd && answer.1 way fd
  (c.serveFds fuel ready maxHandlers 0 (s.1, answer.2)).bind (c.servePids fuel fuel)

/-- Rounds until `url_exit`, `n` of them at most. -/
def serveRounds (fuel : Nat) : Nat → Agenda κ × σ → Except LoopFault (Agenda κ × σ)
  | 0, s => .ok s
  | n + 1, s => if s.1.exitRequest then .ok s else (c.round fuel s).bind (serveRounds fuel n)

/-- The whole program. -/
def run (fuel n : Nat) (init : κ) (w : σ) : Except LoopFault (Agenda κ × σ) :=
  (c.serve init 0 (Agenda.start, w)).bind (c.serveRounds fuel n)

end Client

/-! ## What the lists show -/

namespace Loop

/-- The lists have what waits, and the sets have the descriptors with a handler. The entries that are held are in no list. -/
structure Shows (l : Loop κ) (held : List Nat) (a : Agenda κ) : Prop where
  queue : ∃ bs, l.Lists .bottomHalves bs (a.queue.map .bottomHalf) ∧ held.Disjoint bs
  pids : ∃ ps, l.Lists .pidHandlers ps (a.pids.map pidEntry) ∧ held.Disjoint ps
  held : ∀ n ∈ held, ∃ e, l.entries[n]?.join = some e
  handlers : l.handlers = a.handlers
  fds : l.fds = a.fds
  fdmax : l.fdmax = a.fdmax
  exitRequest : l.exitRequest = a.exitRequest
  trace : l.trace = a.trace

section

omit [DecidableEq κ]

variable {l : Loop κ} {a : Agenda κ} {held bs bs' ps ps' : List Nat} {q : List κ} {hs : List (Int × κ)} {s : Store Node}
  {entries : List (Option (Entry κ))}

/-- No entry is in both lists. -/
theorem disjoint (hb : l.Lists .bottomHalves bs (q.map .bottomHalf)) (hp : l.Lists .pidHandlers ps (hs.map pidEntry)) :
    bs.Disjoint ps := by
  intro n hn hn'
  obtain ⟨e, he, hentry⟩ := hb.entry_of_mem hn
  obtain ⟨e', he', hentry'⟩ := hp.entry_of_mem hn'
  obtain ⟨cb, -, rfl⟩ := List.mem_map.1 he
  obtain ⟨p, -, rfl⟩ := List.mem_map.1 he'
  rw [hentry] at hentry'
  cases hentry'

theorem shows_start : (Loop.start : Loop κ).Shows [] Agenda.start where
  queue := ⟨[], ⟨trivial, Store.Ring.empty rfl rfl, List.Forall₂.nil⟩, List.disjoint_nil_left []⟩
  pids := ⟨[], ⟨trivial, Store.Ring.empty rfl rfl, List.Forall₂.nil⟩, List.disjoint_nil_left []⟩
  held := fun _ hn => absurd hn List.not_mem_nil
  handlers := rfl
  fds := rfl
  fdmax := rfl
  exitRequest := rfl
  trace := rfl

/-- What is held stays when a list changes, and does not get into it. -/
theorem Shows.held_step (h : l.Shows held a) {l' : Loop κ} {head : Node} {ns ns' : List Nat} (hkeeps : l.Keeps l' head ns ns')
    (hdisj : held.Disjoint ns) : held.Disjoint ns' ∧ ∀ n ∈ held, ∃ e, l'.entries[n]?.join = some e := by
  constructor
  · intro n hn hn'
    obtain ⟨e, he⟩ := h.held n hn
    rcases hkeeps.added n hn' with hmem | hnone
    · exact hdisj hn hmem
    · rw [he] at hnone
      cases hnone
  · intro n hn
    obtain ⟨e, he⟩ := h.held n hn
    exact ⟨e, hkeeps.entries n e (fun hmem => hdisj hn hmem) he⟩

/-- The list of the bottom halves changes. -/
theorem Shows.queue_step (h : l.Shows held a) (hb : l.Lists .bottomHalves bs (a.queue.map .bottomHalf)) (hdisj : held.Disjoint bs)
    (hb' : (l.withLists s entries).Lists .bottomHalves bs' (q.map .bottomHalf))
    (hkeeps : l.Keeps (l.withLists s entries) .bottomHalves bs bs') : (l.withLists s entries).Shows held { a with queue := q } := by
  obtain ⟨ps, hp, hpdisj⟩ := h.pids
  obtain ⟨hdisj', hheld⟩ := h.held_step hkeeps hdisj
  exact ⟨⟨bs', hb', hdisj'⟩, ⟨ps, hkeeps.lists _ _ _ (by simp) (disjoint hb hp) hp, hpdisj⟩, hheld, h.handlers, h.fds, h.fdmax,
    h.exitRequest, h.trace⟩

/-- The list of the processes changes. -/
theorem Shows.pids_step (h : l.Shows held a) (hp : l.Lists .pidHandlers ps (a.pids.map pidEntry)) (hdisj : held.Disjoint ps)
    (hp' : (l.withLists s entries).Lists .pidHandlers ps' (hs.map pidEntry))
    (hkeeps : l.Keeps (l.withLists s entries) .pidHandlers ps ps') : (l.withLists s entries).Shows held { a with pids := hs } := by
  obtain ⟨bs, hb, hbdisj⟩ := h.queue
  obtain ⟨hdisj', hheld⟩ := h.held_step hkeeps hdisj
  exact ⟨⟨bs, hkeeps.lists _ _ _ (by simp) (List.disjoint_symm (disjoint hb hp)) hb, hbdisj⟩, ⟨ps', hp', hdisj'⟩, hheld, h.handlers,
    h.fds, h.fdmax, h.exitRequest, h.trace⟩

/-- The lists stay. -/
theorem Shows.of_lists (h : l.Shows held a) {l' : Loop κ} {a' : Agenda κ} (hlinks : l'.links = l.links)
    (hentries : l'.entries = l.entries) (hqueue : a'.queue = a.queue) (hpids : a'.pids = a.pids)
    (hhandlers : l'.handlers = a'.handlers) (hfds : l'.fds = a'.fds) (hfdmax : l'.fdmax = a'.fdmax)
    (hexit : l'.exitRequest = a'.exitRequest) (htrace : l'.trace = a'.trace) : l'.Shows held a' := by
  refine ⟨?_, ?_, hentries ▸ h.held, hhandlers, hfds, hfdmax, hexit, htrace⟩
  · obtain ⟨bs, hb, hdisj⟩ := h.queue
    exact ⟨bs, hqueue ▸ hb.congr hlinks hentries, hdisj⟩
  · obtain ⟨ps, hp, hdisj⟩ := h.pids
    exact ⟨ps, hpids ▸ hp.congr hlinks hentries, hdisj⟩

theorem Shows.tell (h : l.Shows held a) (ev : LoopEvent κ) : (l.tell ev).Shows held { a with trace := a.trace ++ [ev] } :=
  h.of_lists rfl rfl rfl rfl h.handlers h.fds h.fdmax h.exitRequest (by rw [Loop.tell, h.trace])

/-! ## Calls -/

theorem Shows.setHandler (h : l.Shows held a) (way : Way) (fd : Nat) (cb : Option κ) :
    Agree (Shows · held) (l.setHandler way fd cb) (a.setHandler way fd cb) := by
  by_cases hfd : fd < maxHandlers
  · rw [Loop.setHandler, Agenda.setHandler, if_pos hfd, if_pos hfd]
    refine h.of_lists rfl rfl rfl rfl ?_ ?_ ?_ h.exitRequest h.trace
    · simp only [h.handlers]
    · funext way' fd'
      simp only [h.fds, Agenda.fds]
      by_cases hway : way' = way
      · subst hway
        by_cases hfd' : fd' = fd
        · subst hfd'
          simp
        · simp [hfd', Agenda.fds]
      · simp [hway, Agenda.fds]
    · simp only [h.fdmax]
  · rw [Loop.setHandler, Agenda.setHandler, if_neg hfd, if_neg hfd]
    rfl

end

variable {l : Loop κ} {a : Agenda κ} {held : List Nat}

/-- Each call does to the lists what it does to what waits. -/
theorem Shows.run (h : l.Shows held a) (c : LoopCall κ) : Agree (Shows · held) (c.run l) (a.ask c) := by
  cases c with
  | setReadHandler fd cb => exact h.setHandler .read fd cb
  | setWriteHandler fd cb => exact h.setHandler .write fd cb
  | setPidHandler pid cb =>
    obtain ⟨ps, hp, hdisj⟩ := h.pids
    cases cb with
    | none =>
      have hp' : l.Lists .pidHandlers ([] ++ ps) (([] ++ a.pids).map pidEntry) := hp
      obtain ⟨s, entries, ns, hrun, hlists, hkeeps⟩ := deletePid_eq pid hp' rfl (Nat.lt_succ_of_le hp.length_le)
      rw [LoopCall.run, setPidHandler, hp.next_head, hrun]
      exact h.pids_step hp hdisj hlists hkeeps
    | some cb =>
      obtain ⟨s, hrun, hlists, hkeeps⟩ := hp.listAdd (.pidHandler pid cb)
      have hlists' : (l.withLists s _).Lists .pidHandlers _ (((pid, cb) :: a.pids).map pidEntry) := hlists
      rw [LoopCall.run, setPidHandler, hrun]
      exact h.pids_step hp hdisj hlists' hkeeps
  | registerBottomHalf cb =>
    obtain ⟨bs, hb, hdisj⟩ := h.queue
    obtain ⟨s, hrun, hlists, hkeeps⟩ := hb.listAdd (.bottomHalf cb)
    rw [LoopCall.run, registerBottomHalf, hrun]
    have hlists' : (l.withLists s _).Lists .bottomHalves _ ((cb :: a.queue).map .bottomHalf) := hlists
    exact (h.queue_step hb hdisj hlists' hkeeps).tell _
  | unregisterBottomHalf cb =>
    obtain ⟨bs, hb, hdisj⟩ := h.queue
    have hnext : l.next (first .bottomHalves bs) = .ok (l.links.next (first .bottomHalves bs)) :=
      next_eq (hb.alive (first_mem _ _))
    have hb' : l.Lists .bottomHalves ([] ++ bs) (([] ++ a.queue).map .bottomHalf) := hb
    have htail : bs ≠ [] → l.links.next (first .bottomHalves bs) = first .bottomHalves bs.tail := by
      intro hne
      obtain ⟨b, bs, rfl⟩ := List.exists_cons_of_ne_nil hne
      exact hb'.next_entry
    obtain ⟨s, entries, ns, hrun, hlists, hkeeps⟩ :=
      unregisterLoop_eq cb hb' rfl (Nat.lt_succ_of_le hb.length_le) htail
    rw [LoopCall.run, unregisterBottomHalf, hb.next_head, hnext]
    change Agree _ (Except.map _ (unregisterLoop _ _ _ _ _)) _
    rw [hrun]
    exact (h.queue_step hb hdisj hlists hkeeps).tell _
  | urlExit => exact h.of_lists rfl rfl rfl rfl h.handlers h.fds h.fdmax rfl h.trace

theorem Shows.runCalls (h : l.Shows held a) (cs : List (LoopCall κ)) : Agree (Shows · held) (runCalls l cs) (a.askAll cs) := by
  induction cs generalizing l a with
  | nil => exact h
  | cons c cs ih => exact (h.run c).bind fun _ _ h => ih h

omit [DecidableEq κ] in
/-- The oldest bottom half goes out of the list, and is held. -/
theorem Shows.take {q : List κ} {cb : κ} (h : l.Shows [] a) (hq : a.queue = q ++ [cb]) :
    ∃ n s, l.links.prev .bottomHalves = .entry n ∧ l.listDel (.entry n) = .ok (l.withLists s l.entries) ∧
      l.entries[n]?.join = some (.bottomHalf cb) ∧ (l.withLists s l.entries).Shows [n] { a with queue := q } := by
  obtain ⟨bs, hb, -⟩ := h.queue
  have hlen := hb.entries.length_eq
  obtain ⟨bs, n, rfl⟩ : ∃ bs' n, bs = bs' ++ [n] := by
    refine (List.eq_nil_or_concat' bs).resolve_left ?_
    rintro rfl
    simp [hq] at hlen
  have hlen' : bs.length = (q.map Entry.bottomHalf).length := by simpa [hq] using hlen
  have hb' : l.Lists .bottomHalves (bs ++ n :: []) (q.map .bottomHalf ++ .bottomHalf cb :: []) := by simpa [hq] using hb
  obtain ⟨s, hs, hlists, hkeeps⟩ := hb'.listDel hlen'
  obtain ⟨-, hn, -⟩ := hb'.split hlen'
  rw [List.append_nil, List.append_nil] at hlists
  refine ⟨n, s, hb.prev_head, hs, hn, ?_⟩
  have hnot : n ∉ bs := fun hmem => (List.nodup_append.1 hb.nodup).2.2 n hmem n (by simp) rfl
  obtain ⟨ps, hp, -⟩ := h.pids
  refine ⟨⟨bs, hlists, List.singleton_disjoint.2 hnot⟩, ⟨ps, hkeeps.lists _ _ _ (by simp) (disjoint hb hp) hp, ?_⟩, ?_,
    h.handlers, h.fds, h.fdmax, h.exitRequest, h.trace⟩
  · exact List.singleton_disjoint.2 fun hmem => disjoint hb hp (by simp) hmem
  · intro m hm
    obtain rfl := List.mem_singleton.1 hm
    exact ⟨_, hn⟩

omit [DecidableEq κ] in
/-- What is held is freed. -/
theorem Shows.free {n : Nat} (h : l.Shows [n] a) :
    l.free (.entry n) = .ok (l.withLists l.links (l.entries.set n none)) ∧
      (l.withLists l.links (l.entries.set n none)).Shows [] a := by
  obtain ⟨e, he⟩ := h.held n (by simp)
  obtain ⟨bs, hb, hbdisj⟩ := h.queue
  obtain ⟨ps, hp, hpdisj⟩ := h.pids
  exact ⟨if_pos (alive_of_entry he), ⟨bs, hb.free (List.singleton_disjoint.1 hbdisj), List.disjoint_nil_left bs⟩,
    ⟨ps, hp.free (List.singleton_disjoint.1 hpdisj), List.disjoint_nil_left ps⟩, fun _ hm => absurd hm List.not_mem_nil, h.handlers,
    h.fds, h.fdmax, h.exitRequest, h.trace⟩

end Loop

/-! ## The loop -/

/-- The two sides, with the same state of the program around the loop. -/
def Alike (held : List Nat) (s : Loop κ × σ) (a : Agenda κ × σ) : Prop := s.1.Shows held a.1 ∧ s.2 = a.2

namespace Client

variable {c : Client κ σ} {held : List Nat} {l : Loop κ} {a : Agenda κ} {w : σ}

theorem call_alike (h : l.Shows held a) (cb : κ) (status : Int) (w : σ) :
    Agree (Alike held) (c.call cb status (l, w)) (c.serve cb status (a, w)) := by
  refine (h.runCalls _).bind fun _ _ h => ?_
  cases (c.body cb status w).result with
  | error e => rfl
  | ok w' => exact ⟨h, rfl⟩

/-- An entry goes out before its callback is called, and is freed after that. -/
theorem callBottomHalves_alike (fuel : Nat) (h : l.Shows [] a) (w : σ) :
    Agree (Alike []) (c.callBottomHalves fuel (l, w)) (c.drain fuel (a, w)) := by
  induction fuel generalizing l a w with
  | zero => rfl
  | succ fuel ih =>
    obtain ⟨bs, hb, -⟩ := h.queue
    have hlen := hb.entries.length_eq
    rw [callBottomHalves, drain, hb.next_head]
    rcases List.eq_nil_or_concat' a.queue with hq | ⟨q, cb, hq⟩
    · obtain rfl : bs = [] := by simpa [hq] using hlen
      simp only [hq]
      exact ⟨h, rfl⟩
    · have hne : bs ≠ [] := by
        rintro rfl
        simp [hq] at hlen
      obtain ⟨b, bs', rfl⟩ := List.exists_cons_of_ne_nil hne
      obtain ⟨n, s, hprev, hdel, hn, htaken⟩ := h.take hq
      have hentry : (l.withLists s l.entries).entry (.entry n) = .ok (.bottomHalf cb) := Loop.entry_eq hn
      have hlast : a.queue.getLast? = some cb := by simp [hq]
      have hrest : a.queue.dropLast = q := by simp [hq]
      simp only [Loop.first, hprev, hdel, hlast, hrest, Except.bind, hentry, reduceCtorEq, if_false]
      refine (call_alike (htaken.tell (.called cb)) cb 0 w).bind fun s' a' hs' => ?_
      obtain ⟨l', w'⟩ := s'
      obtain ⟨a', w''⟩ := a'
      obtain ⟨hl', rfl⟩ := hs'
      obtain ⟨hfree, hfreed⟩ := hl'.free
      simp only [hfree]
      exact ih hfreed w'

/-- A callback is called, and what waits behind it. -/
theorem turn_alike (fuel : Nat) (h : l.Shows [] a) (cb : κ) (status : Int) (w : σ) :
    Agree (Alike []) ((c.call cb status (l, w)).bind (c.callBottomHalves fuel)) ((c.serve cb status (a, w)).bind (c.drain fuel)) := by
  refine (call_alike h cb status w).bind fun s' a' hs' => ?_
  obtain ⟨l', w'⟩ := s'
  obtain ⟨a', w''⟩ := a'
  obtain ⟨hl', rfl⟩ := hs'
  exact callBottomHalves_alike fuel hl' w'

theorem callHandler_alike (fuel : Nat) (ready : Way → Nat → Bool) (way : Way) (i : Nat) (h : l.Shows [] a) (w : σ) :
    Agree (Alike []) (c.callHandler fuel ready way i (l, w)) (c.serveFd fuel ready way i (a, w)) := by
  simp only [callHandler, serveFd, h.handlers]
  split
  · cases a.handlers way i with
    | none => rfl
    | some cb => exact turn_alike fuel h cb 0 w
  · exact ⟨h, rfl⟩

theorem handlerLoop_alike (fuel : Nat) (ready : Way → Nat → Bool) (n i : Nat) (h : l.Shows [] a) (w : σ) :
    Agree (Alike []) (c.handlerLoop fuel ready n i (l, w)) (c.serveFds fuel ready n i (a, w)) := by
  induction n generalizing i l a w with
  | zero => exact ⟨h, rfl⟩
  | succ n ih =>
    simp only [handlerLoop, serveFds, h.fdmax]
    split
    · refine (callHandler_alike fuel ready .read i h w).bind fun s₁ a₁ hs₁ => ?_
      obtain ⟨l₁, w₁⟩ := s₁
      obtain ⟨a₁, w₁'⟩ := a₁
      obtain ⟨hl₁, rfl⟩ := hs₁
      refine (callHandler_alike fuel ready .write i hl₁ w₁).bind fun s₂ a₂ hs₂ => ?_
      obtain ⟨l₂, w₂⟩ := s₂
      obtain ⟨a₂, w₂'⟩ := a₂
      obtain ⟨hl₂, rfl⟩ := hs₂
      exact ih (i + 1) hl₂ w₂
    · exact ⟨h, rfl⟩

omit [DecidableEq κ] in
/-- The entry behind an address of the list, or behind its head. -/
theorem next_first {ns₁ ns₂ : List Nat} {es : List (Entry κ)} {head : Node} (hl : l.Lists head (ns₁ ++ ns₂) es) :
    ∃ node, l.next (Loop.first head ns₂) = .ok node ∧ (ns₂ ≠ [] → node = Loop.first head ns₂.tail) := by
  have hin : Loop.first head ns₂ ∈ head :: (ns₁ ++ ns₂).map .entry := by
    have hmem := Loop.first_mem head ns₂
    simp only [List.mem_cons, List.map_append, List.mem_append] at hmem ⊢
    tauto
  refine ⟨_, Loop.next_eq (hl.alive hin), fun hne => ?_⟩
  obtain ⟨m, ms, rfl⟩ := List.exists_cons_of_ne_nil hne
  exact hl.next_entry

/-- The loop over the handlers finds the first one of the process. -/
theorem pidLoop_alike (fuel : Nat) (pid status : Int) {n : Nat} {ns₁ ns₂ : List Nat} {hs₁ hs₂ : List (Int × κ)} {ph1 : Node}
    (h : l.Shows [] a) (w : σ) (hl : l.Lists .pidHandlers (ns₁ ++ ns₂) ((hs₁ ++ hs₂).map pidEntry))
    (hlen : ns₁.length = hs₁.length) (hn : ns₂.length < n) (hph1 : ns₂ ≠ [] → ph1 = Loop.first .pidHandlers ns₂.tail) :
    Agree (Alike []) (c.pidLoop fuel pid status n (Loop.first .pidHandlers ns₂) ph1 (l, w))
      (match hs₂.find? fun p => p.1 == pid with
        | none => .ok (a, w)
        | some p => (c.serve p.2 status (a, w)).bind (c.drain fuel)) := by
  have hlen₂ : ns₂.length = hs₂.length := by
    have hall := hl.entries.length_eq
    simp only [List.length_append, List.length_map, hlen] at hall
    exact Nat.add_left_cancel hall
  induction hs₂ generalizing n ns₁ ns₂ hs₁ ph1 with
  | nil =>
    obtain rfl := List.length_eq_zero_iff.1 hlen₂
    obtain ⟨n, rfl⟩ := Nat.exists_eq_succ_of_ne_zero (Nat.ne_of_gt hn)
    exact ⟨h, rfl⟩
  | cons p hs₂ ih =>
    obtain ⟨m, ns₂, rfl⟩ := List.exists_cons_of_length_eq_add_one hlen₂
    obtain ⟨n, rfl⟩ := Nat.exists_eq_succ_of_ne_zero (Nat.ne_of_gt (Nat.zero_lt_of_lt hn))
    have hph1 : ph1 = Loop.first .pidHandlers ns₂ := hph1 (List.cons_ne_nil m ns₂)
    have hl' : l.Lists .pidHandlers (ns₁ ++ m :: ns₂) (hs₁.map pidEntry ++ pidEntry p :: hs₂.map pidEntry) := by simpa using hl
    obtain ⟨-, hm, -⟩ := hl'.split (by simpa using hlen)
    have hentry : l.entry (.entry m) = .ok (.pidHandler p.1 p.2) := Loop.entry_eq hm
    simp only [pidLoop, Loop.first, hentry, Except.bind, reduceCtorEq, if_false]
    by_cases hp : p.1 = pid
    · rw [List.find?_cons_of_pos (by simpa using hp), if_pos hp]
      exact turn_alike fuel h p.2 status w
    · have hl'' : l.Lists .pidHandlers (ns₁ ++ [m] ++ ns₂) ((hs₁ ++ [p] ++ hs₂).map pidEntry) := by simpa using hl
      obtain ⟨ph2, hph2, htail⟩ := next_first hl''
      rw [List.find?_cons_of_neg (by simpa using hp), if_neg hp, hph1, hph2]
      exact ih hl'' (by simpa using hlen) (Nat.lt_of_succ_lt_succ hn) htail (Nat.succ.inj hlen₂)

theorem waitLoop_alike (fuel n : Nat) (h : l.Shows [] a) (w : σ) :
    Agree (Alike []) (c.waitLoop fuel n (l, w)) (c.servePids fuel n (a, w)) := by
  induction n generalizing l a w with
  | zero => rfl
  | succ n ih =>
    obtain ⟨ps, hp, -⟩ := h.pids
    have hlen := hp.entries.length_eq
    simp only [waitLoop, servePids, hp.next_head]
    cases ps with
    | nil =>
      have hpids : a.pids = [] := by simpa using hlen.symm
      rw [if_pos hpids]
      exact ⟨h, rfl⟩
    | cons p ps =>
      have hpids : a.pids ≠ [] := by
        intro hpids
        simp [hpids] at hlen
      rw [if_neg hpids, Loop.first, if_neg Node.noConfusion]
      rcases c.waitpid w with ⟨_ | ⟨pid, status⟩, w'⟩
      · exact ⟨h, rfl⟩
      · have hp' : l.Lists .pidHandlers ([] ++ p :: ps) (([] ++ a.pids).map pidEntry) := hp
        obtain ⟨ph1, hph1, htail⟩ := next_first hp'
        have hall := pidLoop_alike (c := c) fuel pid status h w' hp' rfl (Nat.lt_succ_of_le hp.length_le) htail
        rw [Loop.first] at hph1
        simp only [hph1]
        refine hall.bind fun s' a' hs' => ?_
        obtain ⟨l', w₁⟩ := s'
        obtain ⟨a', w₂⟩ := a'
        obtain ⟨hl', rfl⟩ := hs'
        exact ih hl' w₁

theorem urlBlock_alike (fuel : Nat) (h : l.Shows [] a) (w : σ) :
    Agree (Alike []) (c.urlBlock fuel (l, w)) (c.round fuel (a, w)) := by
  simp only [urlBlock, round, h.fds]
  refine (handlerLoop_alike fuel _ maxHandlers 0 h _).bind fun s' a' hs' => ?_
  obtain ⟨l', w'⟩ := s'
  obtain ⟨a', w''⟩ := a'
  obtain ⟨hl', rfl⟩ := hs'
  exact waitLoop_alike fuel fuel hl' w'

theorem rounds_alike (fuel n : Nat) (h : l.Shows [] a) (w : σ) :
    Agree (Alike []) (c.rounds fuel n (l, w)) (c.serveRounds fuel n (a, w)) := by
  induction n generalizing l a w with
  | zero => exact ⟨h, rfl⟩
  | succ n ih =>
    simp only [rounds, serveRounds, h.exitRequest]
    split
    · exact ⟨h, rfl⟩
    · refine (urlBlock_alike fuel h w).bind fun s' a' hs' => ?_
      obtain ⟨l', w'⟩ := s'
      obtain ⟨a', w''⟩ := a'
      obtain ⟨hl', rfl⟩ := hs'
      exact ih hl' w'

/-- The loop of unix.c ends in the same way as the one over plain lists, whatever the callbacks ask of it: in the same state of the
program, with the same that waits, or with the same fault. -/
theorem urlMainLoop_alike (c : Client κ σ) (fuel n : Nat) (init : κ) (w : σ) :
    Agree (Alike []) (c.urlMainLoop fuel n init w) (c.run fuel n init w) := by
  refine (call_alike Loop.shows_start init 0 w).bind fun s' a' hs' => ?_
  obtain ⟨l', w'⟩ := s'
  obtain ⟨a', w''⟩ := a'
  obtain ⟨hl', rfl⟩ := hs'
  exact rounds_alike fuel n hl' w'

/-! ## A rule for runs -/

/-- What every callback keeps when its turn comes, with the descriptors that are ready in the round, and the faults that it may have.
-/
structure Sound (c : Client κ σ) (I : (Way → Nat → Bool) → Agenda κ × σ → Prop) (F : LoopFault → Prop) : Prop where
  cut : F .cut
  select : ∀ a w, I (fun _ _ => false) (a, w) →
    I (fun way fd => a.fds way fd && (c.select a.fds w).1 way fd) (a, (c.select a.fds w).2)
  waited : ∀ ready s, I ready s → I (fun _ _ => false) s
  fd : ∀ ready way i s, I ready s → ready way i = true →
    (s.1.handlers way i = none → F .null) ∧ ∀ cb, s.1.handlers way i = some cb → Ends (I ready) F (c.serve cb 0 s)
  bottomHalf : ∀ ready a w q cb, I ready (a, w) → a.queue = q ++ [cb] →
    Ends (I ready) F (c.serve cb 0 ({ a with queue := q, trace := a.trace ++ [.called cb] }, w))
  noPid : ∀ a w w', I (fun _ _ => false) (a, w) → c.waitpid w = (none, w') → I (fun _ _ => false) (a, w')
  pid : ∀ a w w' pid status, I (fun _ _ => false) (a, w) → a.pids ≠ [] → c.waitpid w = (some (pid, status), w') →
    (a.pids.find? (fun p => p.1 == pid) = none → I (fun _ _ => false) (a, w')) ∧
      ∀ p, a.pids.find? (fun p => p.1 == pid) = some p → Ends (I fun _ _ => false) F (c.serve p.2 status (a, w'))

namespace Sound

variable {I : (Way → Nat → Bool) → Agenda κ × σ → Prop} {F : LoopFault → Prop} {ready : Way → Nat → Bool} {s : Agenda κ × σ}

theorem drain (h : c.Sound I F) (fuel : Nat) (hs : I ready s) : Ends (I ready) F (c.drain fuel s) := by
  induction fuel generalizing s with
  | zero => exact h.cut
  | succ fuel ih =>
    rw [Client.drain]
    rcases List.eq_nil_or_concat' s.1.queue with hq | ⟨q, cb, hq⟩
    · simp only [hq]
      exact hs
    · have hlast : s.1.queue.getLast? = some cb := by simp [hq]
      have hrest : s.1.queue.dropLast = q := by simp [hq]
      simp only [hlast, hrest]
      exact (h.bottomHalf ready s.1 s.2 q cb hs hq).bind fun s' _ hs' => ih hs'

theorem serveFd (h : c.Sound I F) (fuel : Nat) (way : Way) (i : Nat) (hs : I ready s) :
    Ends (I ready) F (c.serveFd fuel ready way i s) := by
  rw [Client.serveFd]
  split
  case isTrue hready =>
    obtain ⟨hnone, hsome⟩ := h.fd ready way i s hs hready
    cases hcb : s.1.handlers way i with
    | none => exact hnone hcb
    | some cb => exact (hsome cb hcb).bind fun s' _ hs' => h.drain fuel hs'
  case isFalse => exact hs

theorem serveFds (h : c.Sound I F) (fuel n i : Nat) (hs : I ready s) : Ends (I ready) F (c.serveFds fuel ready n i s) := by
  induction n generalizing i s with
  | zero => exact hs
  | succ n ih =>
    rw [Client.serveFds]
    split
    · exact (h.serveFd fuel .read i hs).bind fun s₁ _ hs₁ => (h.serveFd fuel .write i hs₁).bind fun s₂ _ hs₂ => ih (i + 1) hs₂
    · exact hs

theorem servePids (h : c.Sound I F) (fuel n : Nat) (hs : I (fun _ _ => false) s) :
    Ends (I fun _ _ => false) F (c.servePids fuel n s) := by
  induction n generalizing s with
  | zero => exact h.cut
  | succ n ih =>
    obtain ⟨a, w⟩ := s
    rw [Client.servePids]
    split
    · exact hs
    case isFalse hpids =>
      rcases hwait : c.waitpid w with ⟨_ | ⟨pid, status⟩, w'⟩
      · exact h.noPid a w w' hs hwait
      · refine Ends.bind (P := I fun _ _ => false) ?_ fun s' _ hs' => ih hs'
        obtain ⟨hnone, hsome⟩ := h.pid a w w' pid status hs hpids hwait
        rw [servePid]
        cases hfind : a.pids.find? fun p => p.1 == pid with
        | none => exact hnone hfind
        | some p => exact (hsome p hfind).bind fun s' _ hs' => h.drain fuel hs'

theorem serveRounds (h : c.Sound I F) (fuel n : Nat) (hs : I (fun _ _ => false) s) :
    Ends (I fun _ _ => false) F (c.serveRounds fuel n s) := by
  induction n generalizing s with
  | zero => exact hs
  | succ n ih =>
    rw [Client.serveRounds]
    split
    · exact hs
    · exact ((h.serveFds fuel maxHandlers 0 (h.select s.1 s.2 hs)).bind fun s' _ hs' =>
        h.servePids fuel fuel (h.waited _ s' hs')).bind fun s' _ hs' => ih hs'

/-- What the first callback sets up and every turn keeps holds after any number of rounds of the loop of unix.c. -/
theorem urlMainLoop (h : c.Sound I F) (fuel n : Nat) (init : κ) (w : σ)
    (hinit : Ends (I fun _ _ => false) F (c.serve init 0 (Agenda.start, w))) :
    Ends (fun s => ∃ a, s.1.Shows [] a ∧ I (fun _ _ => false) (a, s.2)) F (c.urlMainLoop fuel n init w) := by
  refine ((call_alike Loop.shows_start init 0 w).ends hinit).bind fun s' _ hs' => ?_
  obtain ⟨l', w'⟩ := s'
  obtain ⟨⟨a', _⟩, ⟨hl', rfl⟩, hI⟩ := hs'
  refine ((rounds_alike fuel n hl' w').ends (h.serveRounds fuel n hI)).mono ?_ fun _ hF => hF
  rintro ⟨l, w''⟩ ⟨⟨a, _⟩, ⟨hl, rfl⟩, hI⟩
  exact ⟨a, hl, hI⟩

end Sound

end Client

/-! ## Bottom halves -/

/-- The bottom halves that wait after the events, if each that was called was the oldest one. -/
def replay : List κ → List (LoopEvent κ) → Option (List κ)
  | q, [] => some q
  | q, .registered cb :: evs => replay (cb :: q) evs
  | q, .unregistered cb :: evs => replay (q.filter (· != cb)) evs
  | q, .called cb :: evs => if q.getLast? = some cb then replay q.dropLast evs else none

/-- The bottom halves that were registered, in order. -/
def registered (evs : List (LoopEvent κ)) : List κ :=
  evs.filterMap fun
    | .registered cb => some cb
    | _ => none

/-- Those that were called. -/
def called (evs : List (LoopEvent κ)) : List κ :=
  evs.filterMap fun
    | .called cb => some cb
    | _ => none

theorem replay_append {q q' : List κ} {evs evs' : List (LoopEvent κ)} (h : replay q evs = some q') :
    replay q (evs ++ evs') = replay q' evs' := by
  induction evs generalizing q with
  | nil =>
    obtain rfl := Option.some.inj h
    rfl
  | cons ev evs ih =>
    cases ev with
    | registered cb => exact ih h
    | unregistered cb => exact ih h
    | called cb =>
      simp only [List.cons_append, replay] at h ⊢
      split at h
      case isTrue hlast =>
        rw [if_pos hlast]
        exact ih h
      case isFalse => cases h

/-- Where none is unregistered, they are called in the order in which they were registered. -/
theorem called_append_of_replay {q q' : List κ} {evs : List (LoopEvent κ)} (h : replay q evs = some q')
    (hnone : ∀ cb, .unregistered cb ∉ evs) : called evs ++ q'.reverse = q.reverse ++ registered evs := by
  induction evs generalizing q with
  | nil =>
    obtain rfl := Option.some.inj h
    simp [called, registered]
  | cons ev evs ih =>
    have hnone' : ∀ cb, .unregistered cb ∉ evs := fun cb hmem => hnone cb (List.mem_cons_of_mem ev hmem)
    cases ev with
    | registered cb =>
      have hrest := ih h hnone'
      simpa [called, registered] using hrest
    | unregistered cb => exact absurd List.mem_cons_self (hnone cb)
    | called cb =>
      simp only [replay] at h
      split at h
      case isTrue hlast =>
        have hrest := ih h hnone'
        have hq : q = q.dropLast ++ [cb] := (List.dropLast_append_getLast? cb hlast).symm
        rw [hq]
        simpa [called, registered] using hrest
      case isFalse => cases h

namespace Agenda

variable {a : Agenda κ}

theorem replay_ask (h : replay [] a.trace = some a.queue) (c : LoopCall κ) :
    Ends (fun a => replay [] a.trace = some a.queue) (· = .outside) (a.ask c) := by
  have hset : ∀ way fd cb, Ends (fun a => replay [] a.trace = some a.queue) (· = .outside) (a.setHandler way fd cb) := by
    intro way fd cb
    rw [setHandler]
    split
    · exact h
    · rfl
  cases c with
  | setReadHandler fd cb => exact hset .read fd cb
  | setWriteHandler fd cb => exact hset .write fd cb
  | setPidHandler pid cb => cases cb <;> exact h
  | registerBottomHalf cb => exact replay_append h
  | unregisterBottomHalf cb => exact replay_append h
  | urlExit => exact h

theorem replay_askAll (h : replay [] a.trace = some a.queue) (cs : List (LoopCall κ)) :
    Ends (fun a => replay [] a.trace = some a.queue) (· = .outside) (a.askAll cs) := by
  induction cs generalizing a with
  | nil => exact h
  | cons c cs ih => exact (replay_ask h c).bind fun a _ h => ih h

end Agenda

/-- In every run of the main loop, the bottom half that is called is the oldest one that is registered then, so that they are called
in the order in which they were registered, each of them once; and no entry is used that was freed, if no callback does that. -/
theorem bottomHalves_inOrder (c : Client κ σ) (hbody : ∀ cb status w, (c.body cb status w).result ≠ .error .freed)
    (fuel n : Nat) (init : κ) (w : σ) :
    Ends (fun s => ∃ q, (∃ bs, s.1.Lists .bottomHalves bs (q.map .bottomHalf)) ∧ replay [] s.1.trace = some q ∧
      ((∀ cb, .unregistered cb ∉ s.1.trace) → called s.1.trace ++ q.reverse = registered s.1.trace))
      (· ≠ .freed) (c.urlMainLoop fuel n init w) := by
  have hserve : ∀ cb status (s : Agenda κ × σ), replay [] s.1.trace = some s.1.queue →
      Ends (fun s => replay [] s.1.trace = some s.1.queue) (· ≠ .freed) (c.serve cb status s) := by
    intro cb status s hs
    refine Ends.bind ((s.1.replay_askAll hs _).mono (fun _ h => h) ?_) fun a _ ha => ?_
    · rintro _ rfl
      simp
    · have hnot := hbody cb status s.2
      cases hresult : (c.body cb status s.2).result with
      | error e => exact fun heq => hnot (by rw [hresult, heq])
      | ok w' => exact ha
  have hsound : c.Sound (fun _ s => replay [] s.1.trace = some s.1.queue) (· ≠ .freed) := by
    refine ⟨by simp, fun _ _ h => h, fun _ _ h => h, ?_, ?_, fun _ _ _ h _ => h, ?_⟩
    · intro _ way i s hs _
      exact ⟨fun _ => by simp, fun cb _ => hserve cb 0 s hs⟩
    · intro _ a w q cb hs hq
      refine hserve cb 0 _ ?_
      rw [replay_append hs, hq]
      simp [replay]
    · intro a w w' pid status hs _ _
      exact ⟨fun _ => hs, fun p _ => hserve p.2 status _ hs⟩
  refine (hsound.urlMainLoop fuel n init w (hserve init 0 _ rfl)).mono ?_ fun _ h => h
  rintro s ⟨a, hshows, hreplay⟩
  obtain ⟨bs, hb, -⟩ := hshows.queue
  rw [← hshows.trace] at hreplay
  refine ⟨a.queue, ⟨bs, hb⟩, hreplay, fun hnone => ?_⟩
  simpa using called_append_of_replay hreplay hnone

/-- Two bottom halves wait when the first descriptor is ready, and its handler takes one of them away and registers it again. -/
def twoWait : Client Nat Unit where
  body := fun cb _ w =>
    ⟨match cb with
      | 0 => [.setReadHandler 0 (some 3), .registerBottomHalf 1, .registerBottomHalf 2]
      | 3 => [.unregisterBottomHalf 1, .registerBottomHalf 1, .urlExit]
      | _ => [], .ok w⟩
  select := fun _ w => (fun _ _ => true, w)
  waitpid := fun w => (none, w)

theorem bottomHalves_inOrder_twoWait :
    Ends (fun s => ∃ q, (∃ bs, s.1.Lists .bottomHalves bs (q.map .bottomHalf)) ∧ replay [] s.1.trace = some q ∧
      ((∀ cb, .unregistered cb ∉ s.1.trace) → called s.1.trace ++ q.reverse = registered s.1.trace))
      (· ≠ .freed) (twoWait.urlMainLoop 4 4 0 ()) :=
  bottomHalves_inOrder twoWait (fun _ _ _ => by simp [twoWait]) 4 4 0 ()

end MainLoop

end Hoe
