import Titan.Gateway.Deadlock
import Titan.Gateway.Delivery
import Mathlib.Data.List.Forall2

/-! Whose command a response answers, and whose buffer it goes into.

    Commands and responses carry a descriptor, and descriptors are used again. The custody of a run
    numbers the connections as they are opened and remembers from which one each command was read,
    for which one each response was made, and into whose write buffer it was put. -/

namespace Titan
open Schemes

/-- The connection that a descriptor belongs to: the last one that was opened under it. -/
def connection (opened : List Fd) (fd : Fd) : ℕ := opened.length - 1 - opened.reverse.idxOf fd

section Connection
variable {opened : List Fd} {fd fd' : Fd}

theorem connection_concat_self (opened : List Fd) (fd : Fd) :
    connection (opened ++ [fd]) fd = opened.length := by
  rw [connection, List.reverse_concat, List.idxOf_cons_self, List.length_append,
    List.length_singleton]
  omega

theorem connection_concat_of_ne (h : fd' ≠ fd) :
    connection (opened ++ [fd]) fd' = connection opened fd' := by
  rw [connection, connection, List.reverse_concat, List.idxOf_cons_ne _ (Ne.symm h),
    List.length_append, List.length_singleton]
  omega

/-- The connection of a descriptor was opened under it. -/
theorem opened_connection (h : fd ∈ opened) : opened[connection opened fd]? = some fd := by
  have hmem : fd ∈ opened.reverse := List.mem_reverse.mpr h
  have hlt := List.idxOf_lt_length_of_mem hmem
  have hget : opened.reverse[opened.reverse.idxOf fd]? = some fd := by
    rw [List.getElem?_eq_getElem hlt, List.getElem_idxOf]
  rw [List.length_reverse] at hlt
  rwa [List.getElem?_reverse hlt] at hget

theorem opened_concat {i : ℕ} {x : Fd} (h : opened[i]? = some x) :
    (opened ++ [fd])[i]? = some x := by
  rw [List.getElem?_append_left (List.getElem?_eq_some_iff.mp h).1]
  exact h

end Connection

/-- A response in a write buffer: the connection whose command it answers, and the one whose buffer
    it was appended to. -/
structure Delivered where
  source : ℕ
  target : ℕ
  response : ResponseMessage
  deriving DecidableEq

structure Custody where
  log : Log := {}
  /-- For each admitted command, the connection that it was read from. -/
  readFrom : List ℕ := []
  /-- The responses that were made, each with the connection whose command it answers. -/
  answers : List (ℕ × ResponseMessage) := []
  deliveries : List Delivered := []

namespace Custody

/-- What a list has more than it had before. -/
def added {α : Type} (before after : List α) : List α := after.drop before.length

@[simp] theorem added_self {α : Type} (xs : List α) : added xs xs = [] := List.drop_length ..

@[simp] theorem added_append {α : Type} (xs ys : List α) : added xs (xs ++ ys) = ys :=
  List.drop_left ..

/-- The custody after a move that found the book `book` and led to `log`. -/
def advance (c : Custody) (book : PoolOrderBook) (log : Log) : Custody where
  log := log
  readFrom := c.readFrom ++ (added c.log.admitted log.admitted).map fun msg =>
    connection c.log.opened msg.clientFd
  answers := c.answers ++ (added c.log.executed log.executed).flatMap fun msg =>
    (msg.respond (executeCommand book msg).1).map fun resp =>
      ((c.readFrom[c.log.executed.length]?).getD 0, resp)
  deliveries := c.deliveries ++ (added c.log.delivered log.delivered).map fun resp =>
    { source := ((c.answers[c.log.handled.length]?).map (·.1)).getD 0
      target := connection c.log.opened resp.clientFd
      response := resp }

def record {n : ℕ} (c : Custody) (m : Move (Gateway n) Choice) : Custody :=
  c.advance m.before.book (c.log.record m)

section Advance
variable (c : Custody) (book : PoolOrderBook)

theorem advance_self : c.advance book c.log = c := by
  simp only [advance, added_self, List.map_nil, List.flatMap_nil, List.append_nil]

theorem advance_opened (fd : Fd) :
    c.advance book { c.log with opened := c.log.opened ++ [fd] } =
      { c with log := { c.log with opened := c.log.opened ++ [fd] } } := by
  simp only [advance, added_self, List.map_nil, List.flatMap_nil, List.append_nil]

theorem advance_admitted (msg : IngressMessage) :
    c.advance book { c.log with admitted := c.log.admitted ++ [msg] } = { c with
      log := { c.log with admitted := c.log.admitted ++ [msg] }
      readFrom := c.readFrom ++ [connection c.log.opened msg.clientFd] } := by
  simp only [advance, added_self, added_append, List.map_nil, List.flatMap_nil, List.append_nil,
    List.map_cons]

/-- The next command was read from connection `src`. -/
theorem advance_executed (msg : IngressMessage) {src : ℕ}
    (h : c.readFrom[c.log.executed.length]? = some src) :
    c.advance book { c.log with executed := c.log.executed ++ [msg] } = { c with
      log := { c.log with executed := c.log.executed ++ [msg] }
      answers := c.answers ++
        (msg.respond (executeCommand book msg).1).map fun resp => (src, resp) } := by
  simp only [advance, added_self, added_append, List.map_nil, List.append_nil,
    List.flatMap_singleton, h, Option.getD_some]

/-- The next answer is for connection `src`. -/
theorem advance_delivered (resp : ResponseMessage) {src : ℕ}
    (h : c.answers[c.log.handled.length]? = some (src, resp)) :
    c.advance book { c.log with
      handled := c.log.handled ++ [resp], delivered := c.log.delivered ++ [resp] } = { c with
      log := { c.log with
        handled := c.log.handled ++ [resp], delivered := c.log.delivered ++ [resp] }
      deliveries := c.deliveries ++
        [{ source := src, target := connection c.log.opened resp.clientFd, response := resp }] } := by
  simp only [advance, added_self, added_append, List.map_nil, List.flatMap_nil, List.append_nil,
    List.map_cons, h, Option.map_some, Option.getD_some]

theorem advance_dropped (resp : ResponseMessage) :
    c.advance book { c.log with handled := c.log.handled ++ [resp] } =
      { c with log := { c.log with handled := c.log.handled ++ [resp] } } := by
  simp only [advance, added_self, List.map_nil, List.flatMap_nil, List.append_nil]

end Advance

end Custody

/-- The custody accounts for the gateway, which began with the book `initial`. -/
structure Entrusted {n : ℕ} (initial : PoolOrderBook) (g : Gateway n) (c : Custody) : Prop where
  tally : Tally initial g c.log
  readFrom : List.Forall₂ (fun src (msg : IngressMessage) =>
    c.log.opened[src]? = some msg.clientFd) c.readFrom c.log.admitted
  answered : c.answers.map (·.2) = (runCommands initial c.log.executed).1
  answerFds : ∀ p ∈ c.answers, c.log.opened[p.1]? = some p.2.clientFd
  sublist : (c.deliveries.map fun d => (d.source, d.response)).Sublist
    (c.answers.take c.log.handled.length)
  /-- Of what was handled, an open connection got all that answers its own commands. -/
  complete : ∀ fd, g.clients.find? fd ≠ none →
    (c.deliveries.filter (·.source = connection c.log.opened fd)).map
        (fun d => (d.target, d.response)) =
      (c.answers.take c.log.handled.length).filter (·.1 = connection c.log.opened fd)

namespace Entrusted
variable {n : ℕ} {initial : PoolOrderBook} {g g' : Gateway n} {c : Custody} {log' : Log}

theorem start (queueCapacity : UInt64) (initial : PoolOrderBook) (serverFd : Fd) :
    Entrusted initial (Gateway.start queueCapacity initial serverFd) {} where
  tally := .start ..
  readFrom := .nil
  answered := rfl
  answerFds _ h := nomatch h
  sublist := .refl _
  complete _ _ := rfl

theorem handled_le (h : Entrusted initial g c) : c.log.handled.length ≤ c.answers.length := by
  have hlength := congrArg List.length h.answered
  rw [List.length_map, h.tally.responses] at hlength
  rw [hlength]
  simp only [List.length_append]
  omega

/-- The response that is dealt with next is the next answer. -/
theorem next_answer (h : Entrusted initial g c) {resp : ResponseMessage} {rest : List Task}
    (hnet : g.network = .deliver resp :: rest) :
    ∃ src, c.answers[c.log.handled.length]? = some (src, resp) := by
  have hmap : (c.answers.map (·.2))[c.log.handled.length]? = some resp := by
    rw [h.answered, h.tally.responses, hnet, delivering]
    simp only [List.append_assoc, List.cons_append]
    rw [List.getElem?_append_right le_rfl, Nat.sub_self]
    rfl
  rw [List.getElem?_map] at hmap
  obtain ⟨⟨src, resp'⟩, hp, rfl⟩ := Option.map_eq_some_iff.mp hmap
  exact ⟨src, hp⟩

/-- The connection of a descriptor owns the answers that go to the descriptor, if it owns any under
    its number. -/
theorem fd_of_owner (h : Entrusted initial g c) {fd : Fd} (hopen : g.clients.find? fd ≠ none)
    {p : ℕ × ResponseMessage} (hp : p ∈ c.answers) (hown : p.1 = connection c.log.opened fd) :
    p.2.clientFd = fd := by
  have hfd := h.answerFds p hp
  rw [hown, opened_connection (h.tally.opened fd hopen)] at hfd
  exact (Option.some.inj hfd).symm

/-- Connections may go. -/
theorem of_clients (h : Entrusted initial g c) (htally : Tally initial g' c.log)
    (hopen : ∀ fd, g'.clients.find? fd ≠ none → g.clients.find? fd ≠ none) : Entrusted initial g' c :=
  { h with
    tally := htally
    complete := fun fd hfd => h.complete fd (hopen fd hfd) }

theorem network (h : Entrusted initial g c) (hmove : g.NetworkMove c.log g' log') :
    Entrusted initial g' (c.advance g.book log') := by
  have htally := h.tally.network hmove
  cases hmove with
  | quiet _ _ _ hclients =>
    rw [Custody.advance_self]
    exact h.of_clients htally hclients
  | retried | pushed _ _ | drained _ _ =>
    rw [Custody.advance_self]
    exact h.of_clients htally fun _ hfd => hfd
  | @opened fd hfd =>
    rw [Custody.advance_opened]
    refine
      { tally := htally
        readFrom := h.readFrom.imp fun _ _ hsrc => opened_concat hsrc
        answered := h.answered
        answerFds := fun p hp => opened_concat (h.answerFds p hp)
        sublist := h.sublist
        complete := fun fd' hfd' => ?_ }
    by_cases he : fd' = fd
    · -- nothing was read from a connection that is new
      subst he
      have hnew : ∀ p ∈ c.answers.take c.log.handled.length, ¬ p.1 = c.log.opened.length := by
        intro p hp hown
        have hget := h.answerFds p (List.mem_of_mem_take hp)
        rw [hown, List.getElem?_eq_none le_rfl] at hget
        cases hget
      have hnone : ∀ d ∈ c.deliveries, ¬ d.source = c.log.opened.length := fun d hd =>
        hnew (d.source, d.response) (h.sublist.subset (List.mem_map_of_mem hd))
      rw [connection_concat_self, List.filter_eq_nil_iff.mpr (by simpa using hnone),
        List.filter_eq_nil_iff.mpr (by simpa using hnew), List.map_nil]
    · rw [connection_concat_of_ne he]
      rw [Gateway.setClient, Clients.find?_insert_of_ne he] at hfd'
      exact h.complete fd' hfd'
  | @admitted fd line rest client cmd now hnet hfind =>
    rw [Custody.advance_admitted]
    refine { h with tally := htally, readFrom := ?_ }
    refine List.rel_append h.readFrom (.cons ?_ .nil)
    refine opened_connection (h.tally.opened client.fd ?_)
    rw [Clients.fd_of_find? hfind, hfind]
    exact Option.some_ne_none client
  | @delivered resp rest client buffer hnet hfind =>
    obtain ⟨src, hnext⟩ := h.next_answer hnet
    have hopen : ∀ fd, (g.clients.insert { client with writeBuffer := buffer }).find? fd ≠ none →
        g.clients.find? fd ≠ none := Gateway.setClient_keeps hfind rfl
    rw [c.advance_delivered g.book resp hnext]
    refine { h with tally := htally, sublist := ?_, complete := fun fd hfd => ?_ }
    · rw [List.map_append, List.length_append, List.length_singleton, List.take_add_one, hnext]
      exact h.sublist.append (.refl _)
    · rw [List.length_append, List.length_singleton, List.take_add_one, hnext, List.filter_append,
        List.filter_append, List.map_append, h.complete fd (hopen fd hfd)]
      congr 1
      by_cases hown : src = connection c.log.opened fd
      · have hfd' : resp.clientFd = fd := h.fd_of_owner (hopen fd hfd)
          (List.mem_of_getElem? hnext) hown
        simp [hown, hfd']
      · simp [hown]
  | @dropped resp rest hnet hfind =>
    obtain ⟨src, hnext⟩ := h.next_answer hnet
    rw [Custody.advance_dropped]
    refine { h with tally := htally, sublist := ?_, complete := fun fd hfd => ?_ }
    · rw [List.length_append, List.length_singleton, List.take_add_one]
      exact h.sublist.trans (List.sublist_append_left ..)
    · have hown : ¬ src = connection c.log.opened fd := by
        intro hown
        have hfd' : resp.clientFd = fd := h.fd_of_owner hfd (List.mem_of_getElem? hnext) hown
        rw [← hfd'] at hfd
        exact hfd hfind
      rw [List.length_append, List.length_singleton, List.take_add_one, hnext, List.filter_append,
        h.complete fd hfd]
      simp [hown]

/-- The command that is executed next, and the connection that it was read from. -/
theorem next_command (h : Entrusted initial g c) {msg : IngressMessage} {batch : List IngressMessage}
    (hm : g.matching = .execute (msg :: batch)) :
    ∃ src, c.log.admitted[c.log.executed.length]? = some msg ∧
      c.readFrom[c.log.executed.length]? = some src ∧
      c.log.opened[src]? = some msg.clientFd := by
  have hget : c.log.admitted[c.log.executed.length]? = some msg := by
    rw [h.tally.commands, hm]
    simp only [Matching.Thread.batch, List.append_assoc, List.cons_append]
    rw [List.getElem?_append_right le_rfl, Nat.sub_self]
    rfl
  obtain ⟨hlen, hrel⟩ := List.forall₂_iff_get.mp h.readFrom
  obtain ⟨hi, hi'⟩ := List.getElem?_eq_some_iff.mp hget
  refine ⟨_, hget, List.getElem?_eq_getElem (hlen ▸ hi), ?_⟩
  rw [← hi']
  exact hrel _ _ hi

theorem matching (h : Entrusted initial g c) (hmove : g.MatchingMove c.log g' log') :
    Entrusted initial g' (c.advance g.book log') := by
  have htally := h.tally.matching hmove
  cases hmove with
  | quiet _ _ | popped _ _ _ _ | retried | responded _ _ =>
    rw [Custody.advance_self]
    exact h.of_clients htally fun _ hfd => hfd
  | @executed msg batch thread processed hm hbatch hpending =>
    obtain ⟨src, -, hnext, hfd⟩ := h.next_command hm
    have hle := h.handled_le
    rw [c.advance_executed g.book msg hnext]
    refine { h with tally := htally, answered := ?_, answerFds := ?_, sublist := ?_, complete := ?_ }
    · rw [List.map_append, List.map_map, h.answered, runCommands_concat, ← h.tally.book]
      simp only [Function.comp_def, List.map_id']
    · intro p hp
      rcases List.mem_append.mp hp with hp | hp
      · exact h.answerFds p hp
      · obtain ⟨resp, hresp, rfl⟩ := List.mem_map.mp hp
        rw [hfd, fd_of_mem_respond hresp]
    · rw [List.take_append_of_le_length hle]
      exact h.sublist
    · rw [List.take_append_of_le_length hle]
      exact h.complete

theorem move {a : Choice} (h : Entrusted initial g c) (hstep : Gateway.step a g = some g') :
    Entrusted initial g' (c.record ⟨g, a, g'⟩) := by
  cases a with
  | stop =>
    cases hstep
    rw [Custody.record, Log.record, Custody.advance_self]
    exact { h with tally := { h.tally with } }
  | network a => exact h.network (Gateway.networkStep_move hstep)
  | matching popped => exact h.matching (Gateway.matchingStep_move hstep)

theorem of_trace {queueCapacity : UInt64} {serverFd : Fd} {ms : List (Move (Gateway _) Choice)}
    {g : Gateway _} (h : Trace Gateway.step (.start queueCapacity initial serverFd) ms g) :
    Entrusted initial g (ms.foldl Custody.record {}) :=
  h.fold_invariant (I := Entrusted initial) (P := fun _ => True) Custody.record
    (fun _ _ _ _ hs hstep _ => hs.move hstep) (.start ..) fun _ _ => trivial

end Entrusted

/-! ### Descriptors that are used again -/

namespace Gateway
variable {n : ℕ}

/-- The descriptors of the commands and responses that are under way. -/
def inFlight (g : Gateway n) : List Fd :=
  (g.matching.batch ++ g.ingress.items ++ pushing g.network).map (·.clientFd) ++
    (delivering g.network ++ g.responses.items ++ g.matching.pending).map (·.clientFd)

/-- A new connection gets a descriptor for which nothing is under way. -/
def AcceptsFresh (g : Gateway n) : Choice → Prop
  | .network (.accepted (some fd)) => fd ∉ g.inFlight
  | _ => True

instance (g : Gateway n) : ∀ c, Decidable (g.AcceptsFresh c)
  | .network (.accepted (some _)) => inferInstanceAs (Decidable (_ ∉ _))
  | .network (.accepted none) | .network .none | .network (.popped _) | .network (.ready _)
  | .network (.read _) | .network (.wrote _) | .network (.clock _ _) | .stop | .matching _ =>
    inferInstanceAs (Decidable True)

end Gateway

/-- Whatever is under way for an open connection is its own, and so is what it got. -/
structure Honest {n : ℕ} (g : Gateway n) (c : Custody) : Prop where
  commands : ∀ i src msg, c.log.executed.length ≤ i → c.readFrom[i]? = some src →
    c.log.admitted[i]? = some msg → g.clients.find? msg.clientFd ≠ none →
      src = connection c.log.opened msg.clientFd
  responses : ∀ p ∈ c.answers.drop c.log.handled.length,
    g.clients.find? p.2.clientFd ≠ none → p.1 = connection c.log.opened p.2.clientFd
  deliveries : ∀ d ∈ c.deliveries, d.source = d.target

theorem Gateway.accepts_of_opened {n : ℕ} {g : Gateway n} {log : Log} {a : Answer} {fd : Fd}
    (h : (g.recordNetwork log a).opened = log.opened ++ [fd]) : a = .accepted (some fd) := by
  have hno : log.opened ≠ log.opened ++ [fd] := by
    intro he
    have hlen := congrArg List.length he
    rw [List.length_append, List.length_singleton] at hlen
    omega
  unfold recordNetwork at h
  split at h
  · cases List.append_cancel_left h
    rfl
  · exact absurd h hno
  · split at h <;> exact absurd h hno
  · exact absurd h hno

namespace Entrusted
variable {n : ℕ} {initial : PoolOrderBook} {g : Gateway n} {c : Custody}

/-- A command that is not yet executed is under way. -/
theorem command_inFlight (h : Entrusted initial g c) {i : ℕ} {msg : IngressMessage}
    (hi : c.log.executed.length ≤ i) (hmsg : c.log.admitted[i]? = some msg) :
    msg.clientFd ∈ g.inFlight := by
  rw [h.tally.commands, List.append_assoc, List.append_assoc, List.getElem?_append_right hi]
    at hmsg
  refine List.mem_append_left _ (List.mem_map_of_mem ?_)
  rw [List.append_assoc]
  exact List.mem_of_getElem? hmsg

/-- An answer that is not yet dealt with is under way. -/
theorem answer_waits (h : Entrusted initial g c) {p : ℕ × ResponseMessage}
    (hp : p ∈ c.answers.drop c.log.handled.length) :
    p.2 ∈ delivering g.network ++ g.responses.items ++ g.matching.pending := by
  have hmem : p.2 ∈ (c.answers.map (·.2)).drop c.log.handled.length := by
    rw [← List.map_drop]
    exact List.mem_map_of_mem hp
  rw [h.answered, h.tally.responses, List.append_assoc, List.append_assoc, List.drop_left] at hmem
  rwa [List.append_assoc]

theorem answer_inFlight (h : Entrusted initial g c) {p : ℕ × ResponseMessage}
    (hp : p ∈ c.answers.drop c.log.handled.length) : p.2.clientFd ∈ g.inFlight :=
  List.mem_append_right _ (List.mem_map_of_mem (h.answer_waits hp))

end Entrusted

namespace Honest
variable {n : ℕ} {initial : PoolOrderBook} {g g' : Gateway n} {c : Custody} {log' : Log}

/-- Connections may go. -/
theorem of_clients (h : Honest g c)
    (hopen : ∀ fd, g'.clients.find? fd ≠ none → g.clients.find? fd ≠ none) : Honest g' c :=
  ⟨fun i src msg hi hsrc hmsg hfd => h.commands i src msg hi hsrc hmsg (hopen _ hfd),
    fun p hp hfd => h.responses p hp (hopen _ hfd), h.deliveries⟩

theorem network (h : Honest g c) (hk : Entrusted initial g c) (hmove : g.NetworkMove c.log g' log')
    (hfresh : ∀ fd, log'.opened = c.log.opened ++ [fd] → fd ∉ g.inFlight) :
    Honest g' (c.advance g.book log') := by
  cases hmove with
  | quiet _ _ _ hclients =>
    rw [Custody.advance_self]
    exact h.of_clients hclients
  | retried | pushed _ _ | drained _ _ =>
    rw [Custody.advance_self]
    exact h.of_clients fun _ hfd => hfd
  | @opened fd hfd =>
    have hnone := hfresh fd rfl
    rw [Custody.advance_opened]
    refine ⟨fun i src msg hi hsrc hmsg hopen => ?_, fun p hp hopen => ?_, h.deliveries⟩
    · have hne : msg.clientFd ≠ fd := fun he => hnone (he ▸ hk.command_inFlight hi hmsg)
      rw [Gateway.setClient, Clients.find?_insert_of_ne hne] at hopen
      rw [connection_concat_of_ne hne]
      exact h.commands i src msg hi hsrc hmsg hopen
    · have hne : p.2.clientFd ≠ fd := fun he => hnone (he ▸ hk.answer_inFlight hp)
      rw [Gateway.setClient, Clients.find?_insert_of_ne hne] at hopen
      rw [connection_concat_of_ne hne]
      exact h.responses p hp hopen
  | @admitted fd line rest client cmd now hnet hfind =>
    have hlen := (List.forall₂_iff_get.mp hk.readFrom).1
    rw [Custody.advance_admitted]
    refine ⟨fun i src msg hi hsrc hmsg hopen => ?_, h.responses, h.deliveries⟩
    rcases Nat.lt_or_ge i c.readFrom.length with hlt | hge
    · rw [List.getElem?_append_left hlt] at hsrc
      rw [List.getElem?_append_left (hlen ▸ hlt)] at hmsg
      exact h.commands i src msg hi hsrc hmsg hopen
    · obtain ⟨hi', -⟩ := List.getElem?_eq_some_iff.mp hsrc
      rw [List.length_append, List.length_singleton] at hi'
      obtain rfl : i = c.readFrom.length := by omega
      rw [List.getElem?_concat_length] at hsrc
      rw [hlen, List.getElem?_concat_length] at hmsg
      cases hsrc
      cases hmsg
      rfl
  | @delivered resp rest client buffer hnet hfind =>
    obtain ⟨src, hnext⟩ := hk.next_answer hnet
    have hopen : ∀ fd, (g.clients.insert { client with writeBuffer := buffer }).find? fd ≠ none →
        g.clients.find? fd ≠ none := Gateway.setClient_keeps hfind rfl
    have hmem : (src, resp) ∈ c.answers.drop c.log.handled.length := by
      obtain ⟨hlt, hget⟩ := List.getElem?_eq_some_iff.mp hnext
      rw [List.drop_eq_getElem_cons hlt, hget]
      exact List.mem_cons_self ..
    rw [c.advance_delivered g.book resp hnext]
    refine ⟨fun i src msg hi hsrc hmsg hfd => h.commands i src msg hi hsrc hmsg (hopen _ hfd),
      fun p hp hfd => ?_, ?_⟩
    · rw [List.length_append] at hp
      exact h.responses p (List.drop_subset_drop_left _ (Nat.le_add_right ..) hp) (hopen _ hfd)
    · intro d hd
      rcases List.mem_append.mp hd with hd | hd
      · exact h.deliveries d hd
      · rw [List.mem_singleton.mp hd]
        refine h.responses (src, resp) hmem ?_
        rw [hfind]
        exact Option.some_ne_none client
  | @dropped resp rest hnet hfind =>
    rw [Custody.advance_dropped]
    refine ⟨h.commands, fun p hp hfd => ?_, h.deliveries⟩
    rw [List.length_append] at hp
    exact h.responses p (List.drop_subset_drop_left _ (Nat.le_add_right ..) hp) hfd

theorem matching (h : Honest g c) (hk : Entrusted initial g c) (hmove : g.MatchingMove c.log g' log') :
    Honest g' (c.advance g.book log') := by
  cases hmove with
  | quiet _ _ | popped _ _ _ _ | retried | responded _ _ =>
    rw [Custody.advance_self]
    exact h.of_clients fun _ hfd => hfd
  | @executed msg batch thread processed hm hbatch hpending =>
    obtain ⟨src, hget, hnext, -⟩ := hk.next_command hm
    rw [c.advance_executed g.book msg hnext]
    refine ⟨fun i src' msg' hi => ?_, fun p hp hfd => ?_, h.deliveries⟩
    · rw [List.length_append] at hi
      exact h.commands i src' msg' ((Nat.le_add_right ..).trans hi)
    · rw [List.drop_append_of_le_length hk.handled_le] at hp
      rcases List.mem_append.mp hp with hp | hp
      · exact h.responses p hp hfd
      · obtain ⟨resp, hresp, rfl⟩ := List.mem_map.mp hp
        have hsame : resp.clientFd = msg.clientFd := fd_of_mem_respond hresp
        dsimp only at hfd ⊢
        rw [hsame] at hfd ⊢
        exact h.commands _ src msg le_rfl hnext hget hfd

theorem move {a : Choice} (h : Honest g c) (hk : Entrusted initial g c)
    (hstep : Gateway.step a g = some g') (hfresh : g.AcceptsFresh a) :
    Honest g' (c.record ⟨g, a, g'⟩) := by
  cases a with
  | stop =>
    cases hstep
    rw [Custody.record, Log.record, Custody.advance_self]
    exact ⟨h.commands, h.responses, h.deliveries⟩
  | network a =>
    refine h.network hk (Gateway.networkStep_move hstep) fun fd hopened => ?_
    obtain rfl := Gateway.accepts_of_opened hopened
    exact hfresh
  | matching popped => exact h.matching hk (Gateway.matchingStep_move hstep)

end Honest

/-- In every run in which a connection is only accepted under a descriptor for which nothing is under
    way, every payload in a write buffer answers a command that was read from the same connection. -/
theorem delivered_to_submitter (queueCapacity : UInt64) (initial : PoolOrderBook) (serverFd : Fd)
    {ms : List (Move (Gateway _) Choice)} {g : Gateway _}
    (h : Trace Gateway.step (.start queueCapacity initial serverFd) ms g)
    (hfresh : ∀ m ∈ ms, m.before.AcceptsFresh m.choice) :
    let c := ms.foldl Custody.record {}
    (c.deliveries.map fun d => (d.source, d.response)).Sublist c.answers ∧
      ∀ d ∈ c.deliveries, d.source = d.target := by
  intro c
  have hstart : Honest (Gateway.start queueCapacity initial serverFd) {} :=
    ⟨nofun, nofun, nofun⟩
  have hinv : Entrusted initial g c ∧ Honest g c :=
    h.fold_invariant (I := fun g c => Entrusted initial g c ∧ Honest g c) Custody.record
      (fun _ _ _ _ hs hstep hP => ⟨hs.1.move hstep, hs.2.move hs.1 hstep hP⟩)
      ⟨.start .., hstart⟩ hfresh
  exact ⟨hinv.1.sublist.trans (List.take_sublist ..), hinv.2.deliveries⟩

/-- The one client of the session gets the answers to its own commands. -/
theorem delivered_to_submitter_session :
    let c := (moves Gateway.step (Gateway.start 2 (.ctor 1) 3) session).foldl Custody.record {}
    (c.deliveries.map fun d => (d.source, d.response)).Sublist c.answers ∧
      ∀ d ∈ c.deliveries, d.source = d.target :=
  delivered_to_submitter 2 (.ctor 1) 3
    (.of_play (Option.some_get session_plays).symm) (by decide)

/-- A client sends a command and closes, and the next client gets its descriptor before the command
    is executed. -/
def descriptorReused : List Choice :=
  clientSends "FLUSH\n" ++ nextLine ++ pushLine ++
    [.network .none, .network (.popped 0), .network .none, .network (.popped 0),
      .network (.ready [{ fd := 5, readable := true }]), .network .none, .network .none,
      .network (.read .endOfStream), .network .none,
      .network (.popped 0), .network .none, .network (.popped 0),
      .network (.ready [{ fd := 3, readable := true }]), .network .none,
      .network (.accepted (some 5)), .network (.accepted none), .network (.popped 0),
      .network .none] ++
    executeOne ++ [.matching 0, .network (.popped 1), .network .none]

theorem descriptorReused_misdelivers : (play Gateway.step (Gateway.start 1 (.ctor 1) 3)
      descriptorReused).isSome ∧
    ¬ ∀ d ∈ ((moves Gateway.step (Gateway.start 1 (.ctor 1) 3) descriptorReused).foldl
      Custody.record {}).deliveries, d.source = d.target := by
  decide

/-- A response can reach a connection that never sent the command. -/
theorem delivered_to_stranger : ¬ ∀ (queueCapacity : UInt64) (initial : PoolOrderBook)
    (serverFd : Fd) (ms : List (Move (Gateway _) Choice)) (g : Gateway _),
    Trace Gateway.step (.start queueCapacity initial serverFd) ms g →
      ∀ d ∈ (ms.foldl Custody.record {}).deliveries, d.source = d.target := by
  intro h
  obtain ⟨hplays, hmisdelivers⟩ := descriptorReused_misdelivers
  exact hmisdelivers (h 1 (.ctor 1) 3 _ _ (.of_play (Option.some_get hplays).symm))

end Titan
