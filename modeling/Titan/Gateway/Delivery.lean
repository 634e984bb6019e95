import Titan.Gateway.Moves

/-! Every admitted command is executed once, in order, and answered to its own connection.

    The log of a run is in step with the gateway: what was admitted is what was executed and what is
    still under way, in that order, and likewise for the responses. -/

namespace Titan
open Schemes

/-- The commands executed one after the other: all their responses, and the book in the end. -/
def runCommands (book : PoolOrderBook) :
    List IngressMessage → List ResponseMessage × PoolOrderBook
  | [] => ([], book)
  | msg :: msgs =>
    let first := executeCommand book msg
    let later := runCommands first.2 msgs
    (msg.respond first.1 ++ later.1, later.2)

theorem runCommands_append : ∀ (book : PoolOrderBook) (xs ys : List IngressMessage),
    runCommands book (xs ++ ys) =
      ((runCommands book xs).1 ++ (runCommands (runCommands book xs).2 ys).1,
        (runCommands (runCommands book xs).2 ys).2)
  | _, [], _ => rfl
  | book, x :: xs, ys => by
    simp only [List.cons_append, runCommands, runCommands_append _ xs ys, List.append_assoc]

/-- One more command. -/
theorem runCommands_concat (book : PoolOrderBook) (msgs : List IngressMessage)
    (msg : IngressMessage) : runCommands book (msgs ++ [msg]) =
      ((runCommands book msgs).1 ++
        msg.respond (executeCommand (runCommands book msgs).2 msg).1,
        (executeCommand (runCommands book msgs).2 msg).2) := by
  rw [runCommands_append]
  simp only [runCommands, List.append_nil]

theorem fd_of_mem_respond {msg : IngressMessage} {payload : Text} {resp : ResponseMessage}
    (h : resp ∈ msg.respond payload) : resp.clientFd = msg.clientFd := by
  rw [IngressMessage.respond] at h
  split_ifs at h
  · cases h
  · rw [List.mem_singleton.mp h]

/-- A response goes to the descriptor that its command came from. -/
theorem mem_runCommands : ∀ {book : PoolOrderBook} {msgs : List IngressMessage}
    {resp : ResponseMessage}, resp ∈ (runCommands book msgs).1 →
      ∃ msg ∈ msgs, resp.clientFd = msg.clientFd
  | _, [], _, h => nomatch h
  | book, m :: msgs, resp, h => by
    rcases List.mem_append.mp h with h | h
    · exact ⟨m, List.mem_cons_self .., fd_of_mem_respond h⟩
    · obtain ⟨msg, hmsg, hfd⟩ := mem_runCommands h
      exact ⟨msg, List.mem_cons_of_mem m hmsg, hfd⟩

/-- The log accounts for the gateway, which began with the book `initial`. -/
structure Tally {n : ℕ} (initial : PoolOrderBook) (g : Gateway n) (log : Log) : Prop where
  orderly : Orderly g.network
  sequences : log.admitted.map (·.sequence) =
    (List.range log.admitted.length).map fun i => UInt64.ofNat (i + 1)
  next : g.nextSequence = UInt64.ofNat (log.admitted.length + 1)
  commands : log.admitted =
    log.executed ++ g.matching.batch ++ g.ingress.items ++ pushing g.network
  book : g.book = (runCommands initial log.executed).2
  responses : (runCommands initial log.executed).1 =
    log.handled ++ delivering g.network ++ g.responses.items ++ g.matching.pending
  /-- Commands come from connections, and connections were opened. -/
  origins : ∀ msg ∈ log.admitted, msg.clientFd ∈ log.opened
  opened : ∀ fd, g.clients.find? fd ≠ none → fd ∈ log.opened
  sublist : log.delivered.Sublist log.handled
  /-- Nothing for a connection that is open was dropped. -/
  delivered : log.opened.Nodup → ∀ fd, g.clients.find? fd ≠ none →
    log.delivered.filter (·.clientFd = fd) = log.handled.filter (·.clientFd = fd)

namespace Tally
variable {n : ℕ} {initial : PoolOrderBook} {g g' : Gateway n} {log log' : Log}

theorem start (queueCapacity : UInt64) (initial : PoolOrderBook) (serverFd : Fd) :
    Tally initial (Gateway.start queueCapacity initial serverFd) {} where
  orderly := ⟨trivial, rfl, fun _ => rfl⟩
  sequences := rfl
  next := rfl
  commands := rfl
  book := rfl
  responses := rfl
  origins _ h := nomatch h
  opened _ h := absurd rfl h
  sublist := .refl _
  delivered _ _ _ := rfl

/-- A response that was handled went to a descriptor that was opened. -/
theorem opened_of_handled (h : Tally initial g log) {resp : ResponseMessage}
    (hr : resp ∈ log.handled) : resp.clientFd ∈ log.opened := by
  have hall : resp ∈ (runCommands initial log.executed).1 := by
    rw [h.responses]
    simp [hr]
  obtain ⟨msg, hmsg, hfd⟩ := mem_runCommands hall
  rw [hfd]
  refine h.origins msg ?_
  rw [h.commands]
  simp [hmsg]

theorem quiet {t : Task} {new rest : List Task} {clients : Clients} (h : Tally initial g log)
    (hnet : g.network = t :: rest) (ht : t.Plain)
    (hnew : ∀ x ∈ new, x.Plain ∧ (x.Drains → t.Drains))
    (hclients : ∀ fd, clients.find? fd ≠ none → g.clients.find? fd ≠ none) :
    Tally initial { g with clients := clients, network := new ++ rest } log := by
  have hplain : ∀ x ∈ new, x.Plain := fun x hx => (hnew x hx).1
  have hmove : g.NetworkMove log { g with clients := clients, network := new ++ rest } log :=
    .quiet hnet ht hnew hclients
  refine { h with
    orderly := hmove.orderly h.orderly
    commands := ?_, responses := ?_
    opened := fun fd hfd => h.opened fd (hclients fd hfd)
    delivered := fun hnd fd hfd => h.delivered hnd fd (hclients fd hfd) }
  · rw [h.commands, hnet, ← List.singleton_append, pushing_append, pushing_append, ht.1,
      pushing_plain hplain]
  · rw [h.responses, hnet, ← List.singleton_append, delivering_append, delivering_append, ht.2,
      delivering_plain hplain]

theorem network (h : Tally initial g log) (hmove : g.NetworkMove log g' log') :
    Tally initial g' log' := by
  have horderly := hmove.orderly h.orderly
  cases hmove with
  | quiet hnet ht hnew hclients => exact h.quiet hnet ht hnew hclients
  | @opened fd hfd =>
    refine { h with origins := ?_, opened := ?_, delivered := ?_ }
    · exact fun msg hmsg => List.mem_append_left _ (h.origins msg hmsg)
    · intro fd' hfd'
      by_cases he : fd' = fd
      · exact List.mem_append_right _ (List.mem_singleton.mpr he)
      · rw [Gateway.setClient, Clients.find?_insert_of_ne he] at hfd'
        exact List.mem_append_left _ (h.opened fd' hfd')
    · intro hnd fd' hfd'
      obtain ⟨hnd, -, hdisj⟩ := List.nodup_append.mp hnd
      by_cases he : fd' = fd
      · -- a descriptor that was never open before has no responses
        have hnone : ∀ resp ∈ log.handled, ¬ resp.clientFd = fd' := fun resp hr hrf =>
          hdisj _ (h.opened_of_handled hr) fd (List.mem_singleton_self fd) (hrf.trans he)
        have hhandled : log.handled.filter (·.clientFd = fd') = [] :=
          List.filter_eq_nil_iff.mpr fun resp hr => by simpa using hnone resp hr
        have hdelivered : log.delivered.filter (·.clientFd = fd') = [] :=
          List.filter_eq_nil_iff.mpr fun resp hr => by
            simpa using hnone resp (h.sublist.subset hr)
        exact hdelivered.trans hhandled.symm
      · rw [Gateway.setClient, Clients.find?_insert_of_ne he] at hfd'
        exact h.delivered hnd fd' hfd'
  | @admitted fd line rest client cmd now hnet hfind =>
    obtain ⟨-, hpush, -⟩ := Gateway.orderly_rest h.orderly hnet
    have hseq : (g.message client cmd now).sequence = UInt64.ofNat (log.admitted.length + 1) :=
      h.next
    refine { h with
      orderly := horderly
      sequences := ?_, next := ?_, commands := ?_, responses := ?_, origins := ?_ }
    · rw [List.map_append, List.map_singleton, hseq, h.sequences, List.length_append,
        List.length_singleton, List.range_succ, List.map_append, List.map_singleton]
    · rw [List.length_append, List.length_singleton]
      exact (congrArg (· + 1) h.next).trans (UInt64.ofNat_add _ 1).symm
    · have hold : log.admitted = log.executed ++ g.matching.batch ++ g.ingress.items := by
        rw [h.commands, hnet]
        exact (congrArg _ hpush).trans (List.append_nil _)
      rw [pushing, hpush]
      exact congrArg (· ++ [g.message client cmd now]) hold
    · rw [h.responses, hnet]
      rfl
    · intro msg hmsg
      rcases List.mem_append.mp hmsg with hmsg | hmsg
      · exact h.origins msg hmsg
      · rw [List.mem_singleton.mp hmsg]
        refine h.opened client.fd ?_
        rw [Clients.fd_of_find? hfind, hfind]
        exact Option.some_ne_none client
  | retried => exact h
  | @pushed msg rest ingress hnet hpushed =>
    obtain ⟨-, hpush, -⟩ := Gateway.orderly_rest h.orderly hnet
    refine { h with orderly := horderly, commands := ?_, responses := ?_ }
    · rw [h.commands, hnet, pushing, hpush, (Fifo.push_eq_some_iff.mp hpushed).2]
      simp only [List.append_assoc, List.append_nil]
    · rw [h.responses, hnet]
      rfl
  | @drained rest count hnet =>
    obtain ⟨-, -, hdrain⟩ := Gateway.orderly_rest h.orderly hnet
    refine { h with orderly := horderly, commands := ?_, responses := ?_ }
    · rw [h.commands, hnet, pushing_append, pushing_deliver]
      rfl
    · have hskip : delivering (.drainResponses :: rest) = [] := hdrain trivial
      rw [h.responses, hnet, delivering_append, delivering_deliver, hskip, hdrain trivial,
        List.append_nil, List.append_nil, ← Fifo.popBatch_append g.responses count]
      simp only [List.append_assoc]
  | @delivered resp rest client buffer hnet hfind =>
    have hkeeps : ∀ fd, (g.clients.insert { client with writeBuffer := buffer }).find? fd ≠ none →
        g.clients.find? fd ≠ none := Gateway.setClient_keeps hfind rfl
    refine { h with
      orderly := horderly
      commands := ?_, responses := ?_
      opened := fun fd hfd => h.opened fd (hkeeps fd hfd)
      sublist := h.sublist.append (.refl _)
      delivered := fun hnd fd hfd => ?_ }
    · rw [h.commands, hnet]
      rfl
    · rw [h.responses, hnet, delivering]
      simp only [List.append_assoc, List.singleton_append, delivering]
      rfl
    · rw [List.filter_append, List.filter_append, h.delivered hnd fd (hkeeps fd hfd)]
  | @dropped resp rest hnet hfind =>
    refine { h with
      orderly := horderly, commands := ?_, responses := ?_
      sublist := h.sublist.trans (List.sublist_append_left ..)
      delivered := fun hnd fd hfd => ?_ }
    · rw [h.commands, hnet]
      rfl
    · rw [h.responses, hnet, delivering]
      simp only [List.append_assoc, List.singleton_append]
    · -- the response was for a connection that is gone
      have hne : ¬ resp.clientFd = fd := fun he => hfd (he ▸ hfind)
      rw [List.filter_append, h.delivered hnd fd hfd, List.filter_cons_of_neg (by simpa using hne),
        List.filter_nil, List.append_nil]

theorem matching (h : Tally initial g log) (hmove : g.MatchingMove log g' log') :
    Tally initial g' log' := by
  cases hmove with
  | quiet hbatch hpending =>
    exact { h with
      commands := by rw [h.commands, hbatch]
      responses := by rw [h.responses, hpending] }
  | popped count hm _ _ =>
    refine { h with commands := ?_, responses := ?_ }
    · rw [h.commands, hm, ← Fifo.popBatch_append g.ingress count]
      simp only [Matching.Thread.batch, List.append_assoc, List.nil_append]
    · rw [h.responses, hm]
      rfl
  | @executed msg batch thread processed hm hbatch hpending =>
    have hrun := runCommands_concat initial log.executed msg
    rw [← h.book] at hrun
    refine { h with commands := ?_, book := ?_, responses := ?_ }
    · rw [h.commands, hm, hbatch]
      simp only [Matching.Thread.batch, List.append_assoc, List.singleton_append]
    · rw [hrun]
    · rw [hrun, hpending, h.responses, hm]
      simp only [Matching.Thread.pending, List.append_nil]
  | retried => exact h
  | responded hm hpush =>
    refine { h with commands := ?_, responses := ?_ }
    · rw [h.commands, hm]
      rfl
    · rw [h.responses, hm, (Fifo.push_eq_some_iff.mp hpush).2]
      simp only [Matching.Thread.pending, List.append_assoc, List.append_nil]

/-- Every move of a run keeps the log in step. -/
theorem move {a : Choice} (h : Tally initial g log) (hstep : Gateway.step a g = some g') :
    Tally initial g' (log.record ⟨g, a, g'⟩) := by
  cases a with
  | stop =>
    cases hstep
    exact { h with }
  | network a => exact h.network (Gateway.networkStep_move hstep)
  | matching popped => exact h.matching (Gateway.matchingStep_move hstep)

theorem of_trace {queueCapacity : UInt64} {serverFd : Fd}
    {ms : List (Move (Gateway _) Choice)} {g : Gateway _}
    (h : Trace Gateway.step (.start queueCapacity initial serverFd) ms g) :
    Tally initial g (ms.foldl Log.record {}) :=
  h.fold_invariant (I := Tally initial) (P := fun _ => True) Log.record
    (fun _ _ _ _ ht hs _ => ht.move hs) (.start ..) fun _ _ => trivial

end Tally

/-- What the log has as delivered is what was appended to the write buffers: a step adds a response to
    it just when it delivers that response to an open connection, and then it appends the payload to
    the write buffer of this connection. -/
theorem delivered_appended {n : ℕ} {g g' : Gateway n} {c : Choice} (h : Gateway.step c g = some g')
    (log : Log) :
    ((∀ a, c = .network a → ∀ resp rest, g.network = .deliver resp :: rest →
        g.clients.find? resp.clientFd = none) ∧
      (log.record ⟨g, c, g'⟩).delivered = log.delivered) ∨
    ∃ resp rest client, g.network = .deliver resp :: rest ∧
      g.clients.find? resp.clientFd = some client ∧
      (log.record ⟨g, c, g'⟩).delivered = log.delivered ++ [resp] ∧
      g'.clients =
        g.clients.insert { client with writeBuffer := client.writeBuffer ++ resp.payload } := by
  cases c with
  | stop => exact .inl ⟨fun _ hc => absurd hc (by simp), rfl⟩
  | matching popped =>
    refine .inl ⟨fun _ hc => absurd hc (by simp), ?_⟩
    simp only [Log.record, Gateway.recordMatching]
    split <;> rfl
  | network a =>
    simp only [Log.record, Gateway.recordNetwork]
    split
    case h_1 rest fd hnet =>
      refine .inl ⟨fun _ _ resp rest' hdeliver => ?_, rfl⟩
      rw [hnet] at hdeliver
      cases hdeliver
    case h_2 hnet =>
      refine .inl ⟨fun _ _ resp rest' hdeliver => ?_, rfl⟩
      rw [hnet] at hdeliver
      cases hdeliver
    case h_3 a _ _ resp rest hnet =>
      cases hfind : g.clients.find? resp.clientFd with
      | none =>
        refine .inl ⟨fun _ _ resp' rest' hdeliver => ?_, rfl⟩
        rw [hnet] at hdeliver
        cases hdeliver
        exact hfind
      | some client =>
        refine .inr ⟨resp, rest, client, hnet, hfind, rfl, ?_⟩
        have hstep : Gateway.networkStep a g = some g' := h
        unfold Gateway.networkStep at hstep
        rw [hnet] at hstep
        cases a with
        | none =>
          dsimp only at hstep
          rw [hfind] at hstep
          cases hstep
          rfl
        | _ => cases hstep
    case h_4 hother _ =>
      refine .inl ⟨fun _ _ resp rest hdeliver => ?_, rfl⟩
      exact absurd hdeliver (hother resp rest)

/-- In every run the commands that were executed are the first that were admitted, with the sequence
    numbers of the 64-bit counter, and what was admitted since is still under way, in order; the book
    is what they make of it one after the other. As long as no descriptor is used twice, what each
    open connection was sent is a prefix of the payloads of its own commands. -/
theorem commands_executed_once (queueCapacity : UInt64) (initial : PoolOrderBook) (serverFd : Fd)
    {ms : List (Move (Gateway _) Choice)} {g : Gateway _}
    (h : Trace Gateway.step (.start queueCapacity initial serverFd) ms g) :
    let log := ms.foldl Log.record {}
    log.admitted = log.executed ++ g.matching.batch ++ g.ingress.items ++ pushing g.network ∧
    log.executed.map (·.sequence) =
      (List.range log.executed.length).map (fun i => UInt64.ofNat (i + 1)) ∧
    g.book = (runCommands initial log.executed).2 ∧
    (log.opened.Nodup → ∀ fd, g.clients.find? fd ≠ none →
      (log.delivered.filter (·.clientFd = fd)).map (·.payload) <+:
        ((runCommands initial log.admitted).1.filter (·.clientFd = fd)).map (·.payload)) := by
  intro log
  have ht := Tally.of_trace h
  have hprefix : log.executed <+: log.admitted := by
    rw [ht.commands, List.append_assoc, List.append_assoc]
    exact List.prefix_append ..
  refine ⟨ht.commands, ?_, ht.book, fun hnd fd hfd => ?_⟩
  · have hmap : log.executed.map (·.sequence) <+: log.admitted.map (·.sequence) := hprefix.map _
    rw [ht.sequences] at hmap
    rw [List.prefix_iff_eq_take.mp hmap, List.length_map, ← List.map_take, List.take_range,
      min_eq_left hprefix.length_le]
  · rw [ht.delivered hnd fd hfd]
    refine (List.IsPrefix.filter _ ?_).map _
    obtain ⟨later, hlater⟩ := hprefix
    rw [← hlater, runCommands_append, ht.responses, List.append_assoc, List.append_assoc,
      List.append_assoc]
    exact List.prefix_append ..

/-- A client sends two orders, which trade, and reads both answers. -/
def session : List Choice :=
  [.network .none, .network (.popped 0), .network (.ready [{ fd := 3, readable := true }]),
   .network .none, .network (.accepted (some 5)), .network (.accepted none), .network (.popped 0),
   .network .none, .network (.popped 0), .network (.ready [{ fd := 5, readable := true }]),
   .network .none, .network .none,
   .network (.read (.data "NEW S 1 100 5\r\nNEW B 2 100 3\n".toList)),
   .network (.read .wouldBlock),
   .network .none, .network (.clock 1 1), .network .none, .network .none,
   .network .none, .network (.clock 2 2), .network .none, .network .none, .network .none,
   .matching 0, .matching 2, .matching 0, .matching 0, .matching 0, .matching 0,
   .network (.popped 2), .network .none, .network (.wrote (.sent 8)), .network .none,
   .network .none, .network (.wrote .wouldBlock)]

theorem session_plays :
    (play Gateway.step (Gateway.start 2 (.ctor 1) 3) session).isSome := by
  decide

theorem commands_executed_once_session :
    let ms := moves Gateway.step (Gateway.start 2 (.ctor 1) 3) session
    let g := (play Gateway.step (Gateway.start 2 (.ctor 1) 3) session).get session_plays
    let log := ms.foldl Log.record {}
    log.admitted = log.executed ++ g.matching.batch ++ g.ingress.items ++ pushing g.network ∧
    log.executed.map (·.sequence) =
      (List.range log.executed.length).map (fun i => UInt64.ofNat (i + 1)) ∧
    g.book = (runCommands (.ctor 1) log.executed).2 ∧
    (log.opened.Nodup → ∀ fd, g.clients.find? fd ≠ none →
      (log.delivered.filter (·.clientFd = fd)).map (·.payload) <+:
        ((runCommands (.ctor 1) log.admitted).1.filter (·.clientFd = fd)).map (·.payload)) :=
  commands_executed_once 2 (.ctor 1) 3 (.of_play (Option.some_get _).symm)

end Titan
