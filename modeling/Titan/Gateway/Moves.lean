import Titan.Gateway.Server

/-! What a move of either thread can do to what the threads share.

    A log remembers what a run admitted, executed and delivered. Every move is of one of a few kinds,
    with its effect on the queues and on the log; the invariants are proved from the kinds alone. -/

namespace Titan
open Schemes

/-! ### What is under way in a thread -/

/-- The commands that the network thread is pushing. -/
def pushing : List Task → List IngressMessage
  | [] => []
  | .pushIngress msg :: ts => msg :: pushing ts
  | _ :: ts => pushing ts

/-- The responses that the network thread has popped and not yet dealt with. -/
def delivering : List Task → List ResponseMessage
  | [] => []
  | .deliver resp :: ts => resp :: delivering ts
  | _ :: ts => delivering ts

namespace Task

/-- A task that carries no message. -/
def Plain (t : Task) : Prop := pushing [t] = [] ∧ delivering [t] = []

/-- A task that pops responses, or leads to one that does. -/
def Drains : Task → Prop
  | .whileRunning | .drainResponses => True
  | _ => False

end Task

theorem pushing_append : ∀ ts us : List Task, pushing (ts ++ us) = pushing ts ++ pushing us
  | [], _ => rfl
  | t :: ts, us => by
    cases t <;> simp only [List.cons_append, pushing, pushing_append ts us]

theorem delivering_append : ∀ ts us : List Task,
    delivering (ts ++ us) = delivering ts ++ delivering us
  | [], _ => rfl
  | t :: ts, us => by
    cases t <;> simp only [List.cons_append, delivering, delivering_append ts us]

theorem pushing_plain : ∀ {ts : List Task}, (∀ t ∈ ts, t.Plain) → pushing ts = []
  | [], _ => rfl
  | t :: ts, h => by
    have ht := (h t (List.mem_cons_self ..)).1
    have hts := pushing_plain fun x hx => h x (List.mem_cons_of_mem t hx)
    rw [← List.singleton_append, pushing_append, ht, hts, List.nil_append]

theorem delivering_plain : ∀ {ts : List Task}, (∀ t ∈ ts, t.Plain) → delivering ts = []
  | [], _ => rfl
  | t :: ts, h => by
    have ht := (h t (List.mem_cons_self ..)).2
    have hts := delivering_plain fun x hx => h x (List.mem_cons_of_mem t hx)
    rw [← List.singleton_append, delivering_append, ht, hts, List.nil_append]

theorem pushing_deliver : ∀ rs : List ResponseMessage, pushing (rs.map .deliver) = []
  | [] => rfl
  | _ :: rs => pushing_deliver rs

theorem delivering_deliver : ∀ rs : List ResponseMessage, delivering (rs.map .deliver) = rs
  | [] => rfl
  | r :: rs => congrArg (r :: ·) (delivering_deliver rs)

/-- Only the next task can be a push, and nothing that was popped is left behind a task that pops. -/
def Orderly : List Task → Prop
  | [] => True
  | t :: ts => Orderly ts ∧ pushing ts = [] ∧ (t.Drains → delivering ts = [])

namespace Orderly
variable {t : Task} {ts us : List Task}

theorem append (hus : Orderly us) (hp : pushing us = []) (hts : ∀ t ∈ ts, t.Plain)
    (hd : (∃ t ∈ ts, t.Drains) → delivering us = []) : Orderly (ts ++ us) := by
  induction ts with
  | nil => exact hus
  | cons t ts ih =>
    obtain ⟨ht, hts⟩ := List.forall_mem_cons.mp hts
    rw [List.cons_append, Orderly]
    refine ⟨ih hts fun ⟨x, hx, hxd⟩ => hd ⟨x, List.mem_cons_of_mem t hx, hxd⟩, ?_, fun htd => ?_⟩
    · rw [pushing_append, pushing_plain hts, hp]; rfl
    · rw [delivering_append, delivering_plain hts, hd ⟨t, List.mem_cons_self .., htd⟩]; rfl

/-- A batch of responses in front of the tasks. -/
theorem deliver (hus : Orderly us) (hp : pushing us = []) : ∀ rs : List ResponseMessage,
    Orderly (rs.map .deliver ++ us)
  | [] => hus
  | r :: rs => by
    rw [List.map_cons, List.cons_append, Orderly]
    refine ⟨deliver hus hp rs, ?_, fun h => h.elim⟩
    rw [pushing_append, pushing_deliver, hp]; rfl

end Orderly

/-- The commands that the matching thread has popped and not yet executed. -/
def Matching.Thread.batch : Matching.Thread → List IngressMessage
  | .execute batch | .respond _ batch => batch
  | _ => []

/-- The response that the matching thread is pushing. -/
def Matching.Thread.pending : Matching.Thread → List ResponseMessage
  | .respond resp _ => [resp]
  | _ => []

/-- The response of a command: none, if the payload is empty. -/
def IngressMessage.respond (msg : IngressMessage) (payload : Text) : List ResponseMessage :=
  if payload = [] then []
  else [{ clientFd := msg.clientFd, sequence := msg.sequence, payload := payload }]

/-! ### The log of a run -/

/-- What a run did: the descriptors it opened, the commands it admitted and executed, and the
    responses it took from the queue, with those that it appended to a write buffer. -/
structure Log where
  opened : List Fd := []
  admitted : List IngressMessage := []
  executed : List IngressMessage := []
  handled : List ResponseMessage := []
  delivered : List ResponseMessage := []

namespace Gateway
variable {n : ℕ}

/-- The command that the network thread admits with its next step. -/
def admits (g : Gateway n) : Answer → List IngressMessage
  | .clock parsed ingress =>
    match g.network with
    | .processLine fd line :: _ =>
      match g.clients.find? fd with
      | none => []
      | some client =>
        let cmd := Protocol.parseLine parsed line
        if line = [] ∨ cmd.type = .unknown then [] else [g.message client cmd ingress]
    | _ => []
  | _ => []

def recordNetwork (g : Gateway n) (log : Log) (a : Answer) : Log :=
  match g.network, a with
  | .acceptConnections :: _, .accepted (some fd) => { log with opened := log.opened ++ [fd] }
  | .processLine _ _ :: _, a => { log with admitted := log.admitted ++ g.admits a }
  | .deliver resp :: _, _ =>
    match g.clients.find? resp.clientFd with
    | none => { log with handled := log.handled ++ [resp] }
    | some _ => { log with
      handled := log.handled ++ [resp], delivered := log.delivered ++ [resp] }
  | _, _ => log

def recordMatching (g : Gateway n) (log : Log) : Log :=
  match g.matching with
  | .execute (msg :: _) => { log with executed := log.executed ++ [msg] }
  | _ => log

end Gateway

def Log.record {n : ℕ} (log : Log) (m : Move (Gateway n) Choice) : Log :=
  match m.choice with
  | .stop => log
  | .network a => m.before.recordNetwork log a
  | .matching _ => m.before.recordMatching log

theorem Gateway.admitted_recordNetwork {n : ℕ} (g : Gateway n) (log : Log) (a : Answer) :
    (g.recordNetwork log a).admitted = log.admitted ++ g.admits a := by
  have hnone : (∀ fd line rest, g.network ≠ .processLine fd line :: rest) → g.admits a = [] := by
    intro h
    unfold admits
    split
    · split
      · rename_i fd line rest hnet
        exact absurd hnet (h fd line rest)
      · rfl
    · rfl
  unfold recordNetwork
  split
  case h_1 rest fd hnet => rw [hnone (by simp [hnet]), List.append_nil]
  case h_2 => rfl
  case h_3 resp rest hnet =>
    rw [hnone (by simp [hnet]), List.append_nil]
    split <;> rfl
  case h_4 hother _ _ => rw [hnone hother, List.append_nil]

/-! ### The kinds of moves -/

namespace Gateway
variable {n : ℕ} {g g' : Gateway n} {log : Log}

/-- The moves of the network thread. -/
inductive NetworkMove (g : Gateway n) (log : Log) : Gateway n → Log → Prop
  /-- The next task gives way to tasks that carry no message; connections may go. -/
  | quiet {t : Task} {new rest : List Task} {clients : Clients} : g.network = t :: rest → t.Plain →
      (∀ x ∈ new, x.Plain ∧ (x.Drains → t.Drains)) →
      (∀ fd, clients.find? fd ≠ none → g.clients.find? fd ≠ none) →
      NetworkMove g log { g with clients := clients, network := new ++ rest } log
  | opened {fd : Fd} : g.clients.find? fd = none →
      NetworkMove g log (g.setClient { fd := fd }) { log with opened := log.opened ++ [fd] }
  | admitted {fd : Fd} {line : Text} {rest : List Task} {client : ClientConnection}
      {cmd : ParsedCommand} {now : Timestamp} : g.network = .processLine fd line :: rest →
      g.clients.find? fd = some client →
      NetworkMove g log { g with
        nextSequence := g.nextSequence + 1,
        network := .pushIngress (g.message client cmd now) :: rest }
        { log with admitted := log.admitted ++ [g.message client cmd now] }
  | retried : NetworkMove g log g log
  | pushed {msg : IngressMessage} {rest : List Task} {ingress : Fifo IngressMessage n} :
      g.network = .pushIngress msg :: rest → g.ingress.push msg = some ingress →
      NetworkMove g log { g with ingress := ingress, network := rest } log
  | drained {rest : List Task} (count : ℕ) : g.network = .drainResponses :: rest →
      NetworkMove g log { g with
        responses := (g.responses.popBatch count).2,
        network := (g.responses.popBatch count).1.map .deliver ++ rest } log
  | delivered {resp : ResponseMessage} {rest : List Task} {client : ClientConnection} {buffer : Text} :
      g.network = .deliver resp :: rest → g.clients.find? resp.clientFd = some client →
      NetworkMove g log
        { g.setClient { client with writeBuffer := buffer } with
          network := .flush client.fd :: rest }
        { log with handled := log.handled ++ [resp], delivered := log.delivered ++ [resp] }
  | dropped {resp : ResponseMessage} {rest : List Task} : g.network = .deliver resp :: rest →
      g.clients.find? resp.clientFd = none →
      NetworkMove g log { g with network := rest } { log with handled := log.handled ++ [resp] }

theorem setClient_keeps {client c : ClientConnection} {fd : Fd} (h : g.clients.find? fd = some c)
    (hc : client.fd = c.fd) : ∀ fd', (g.clients.insert client).find? fd' ≠ none →
    g.clients.find? fd' ≠ none := by
  intro fd' hf
  by_cases hfd : fd' = client.fd
  · rw [hfd, hc, Clients.fd_of_find? h, h]
    exact Option.some_ne_none c
  · rwa [Clients.find?_insert_of_ne hfd] at hf

namespace NetworkMove
variable {t : Task} {rest : List Task}

theorem tasks (new : List Task) (hnet : g.network = t :: rest) (ht : t.Plain)
    (hnew : ∀ x ∈ new, x.Plain ∧ (x.Drains → t.Drains)) :
    NetworkMove g log { g with network := new ++ rest } log :=
  .quiet hnet ht hnew fun _ h => h

/-- The buffers of a connection change. -/
theorem buffers {client c : ClientConnection} {fd : Fd} (new : List Task)
    (hnet : g.network = t :: rest) (ht : t.Plain)
    (hnew : ∀ x ∈ new, x.Plain ∧ (x.Drains → t.Drains)) (hfind : g.clients.find? fd = some c)
    (hc : client.fd = c.fd) :
    NetworkMove g log { g.setClient client with network := new ++ rest } log :=
  .quiet hnet ht hnew (setClient_keeps hfind hc)

/-- The next task stays the next. -/
theorem stays {client c : ClientConnection} {fd : Fd} (hnet : g.network = t :: rest) (ht : t.Plain)
    (hfind : g.clients.find? fd = some c) (hc : client.fd = c.fd) :
    NetworkMove g log (g.setClient client) log := by
  have h : NetworkMove g log { g.setClient client with network := [t] ++ rest } log :=
    buffers [t] hnet ht (fun x hx => by rw [List.mem_singleton.mp hx]; exact ⟨ht, id⟩) hfind hc
  rw [List.singleton_append, ← hnet] at h
  exact h

/-- Connections go. -/
theorem closes (clients : Clients) (hnet : g.network = t :: rest) (ht : t.Plain)
    (hclients : ∀ fd, clients.find? fd ≠ none → g.clients.find? fd ≠ none) :
    NetworkMove g log { g with clients := clients, network := rest } log := by
  have h : NetworkMove g log { g with clients := clients, network := [] ++ rest } log :=
    .quiet hnet ht (fun x hx => nomatch hx) hclients
  exact h

end NetworkMove

/-- Every step of the network thread is a move of one of the kinds. -/
theorem networkStep_move {a : Answer} (h : networkStep a g = some g') :
    NetworkMove g log g' (g.recordNetwork log a) := by
  unfold networkStep at h
  split at h
  case h_1 _ _ rest hnet =>
    simp only [recordNetwork, hnet]
    split_ifs at h <;> cases h
    · exact .tasks [.drainResponses, .epollWait, .drainResponses, .whileRunning] hnet ⟨rfl, rfl⟩
        (by simp [Task.Plain, Task.Drains, pushing, delivering])
    · exact .tasks [.join, .drainResponses, .cleanup] hnet ⟨rfl, rfl⟩
        (by simp [Task.Plain, Task.Drains, pushing, delivering])
  case h_2 _ _ rest count hnet =>
    simp only [recordNetwork, hnet]
    split_ifs at h
    cases h
    exact .drained count hnet
  case h_3 _ _ resp rest hnet =>
    simp only [recordNetwork, hnet]
    cases hfind : g.clients.find? resp.clientFd with
    | none =>
      rw [hfind] at h
      cases h
      exact .dropped hnet hfind
    | some client =>
      rw [hfind] at h
      cases h
      exact .delivered hnet hfind
  case h_4 _ _ rest events hnet =>
    simp only [recordNetwork, hnet]
    split_ifs at h
    cases h
    refine .tasks (events.map .event) hnet ⟨rfl, rfl⟩ fun x hx => ?_
    obtain ⟨e, -, rfl⟩ := List.mem_map.mp hx
    exact ⟨⟨rfl, rfl⟩, fun hd => hd⟩
  case h_5 _ _ e rest hnet =>
    simp only [recordNetwork, hnet]
    split_ifs at h <;> cases h
    · exact .tasks [.acceptConnections] hnet ⟨rfl, rfl⟩
        (by simp [Task.Plain, Task.Drains, pushing, delivering])
    · exact .tasks [.closeConnection e.fd] hnet ⟨rfl, rfl⟩
        (by simp [Task.Plain, Task.Drains, pushing, delivering])
    all_goals
      refine .tasks _ hnet ⟨rfl, rfl⟩ ?_
      simp [Task.Plain, Task.Drains, pushing, delivering]
  case h_6 _ _ rest hnet =>
    simp only [recordNetwork, hnet]
    cases h
    exact .tasks [] hnet ⟨rfl, rfl⟩ (by simp)
  case h_7 _ _ rest fd hnet =>
    simp only [recordNetwork, hnet]
    split_ifs at h with hnew
    cases h
    exact .opened hnew.2
  case h_8 _ _ fd rest hnet =>
    simp only [recordNetwork, hnet]
    cases hfind : g.clients.find? fd <;> rw [hfind] at h <;> cases h
    · exact .tasks [] hnet ⟨rfl, rfl⟩ (by simp)
    · exact .tasks [.readChunks fd] hnet ⟨rfl, rfl⟩
        (by simp [Task.Plain, Task.Drains, pushing, delivering])
  case h_9 _ _ fd rest r hnet =>
    simp only [recordNetwork, hnet]
    cases hfind : g.clients.find? fd with
    | none => rw [hfind] at h; cases h
    | some client =>
      rw [hfind] at h
      cases r with
      | data bytes =>
        dsimp only at h
        split_ifs at h
        cases h
        exact .stays hnet ⟨rfl, rfl⟩ hfind rfl
      | wouldBlock =>
        cases h
        exact .tasks [.lines fd] hnet ⟨rfl, rfl⟩
          (by simp [Task.Plain, Task.Drains, pushing, delivering])
      | _ =>
        cases h
        exact .tasks [.closeConnection fd] hnet ⟨rfl, rfl⟩
          (by simp [Task.Plain, Task.Drains, pushing, delivering])
  case h_10 _ _ fd rest hnet =>
    simp only [recordNetwork, hnet]
    cases hfind : g.clients.find? fd with
    | none => rw [hfind] at h; cases h
    | some client =>
      rw [hfind] at h
      dsimp only at h
      split_ifs at h <;> cases h
      · exact .tasks [.processLine fd _, .eraseLine fd _, .lines fd] hnet ⟨rfl, rfl⟩
          (by simp [Task.Plain, Task.Drains, pushing, delivering])
      · exact .tasks [] hnet ⟨rfl, rfl⟩ (by simp)
  case h_11 _ _ fd line rest parsed ingress hnet =>
    simp only [recordNetwork, hnet, admits]
    cases hfind : g.clients.find? fd with
    | none => rw [hfind] at h; cases h
    | some client =>
      rw [hfind] at h
      dsimp only at h ⊢
      by_cases hline : line = []
      · rw [if_pos hline] at h
        rw [if_pos (.inl hline), List.append_nil]
        cases h
        exact .tasks [] hnet ⟨rfl, rfl⟩ (by simp)
      · rw [if_neg hline] at h
        by_cases htype : (Protocol.parseLine parsed line).type = .unknown
        · rw [if_pos htype] at h
          rw [if_pos (.inr htype), List.append_nil]
          cases h
          exact .buffers [.flush fd] hnet ⟨rfl, rfl⟩
            (by simp [Task.Plain, Task.Drains, pushing, delivering]) hfind rfl
        · rw [if_neg htype] at h
          rw [if_neg (not_or.mpr ⟨hline, htype⟩)]
          cases h
          exact .admitted hnet hfind
  case h_12 _ _ msg rest hnet =>
    simp only [recordNetwork, hnet]
    cases hpush : g.ingress.push msg with
    | none => rw [hpush] at h; cases h; exact .retried
    | some ingress => rw [hpush] at h; cases h; exact .pushed hnet hpush
  case h_13 _ _ fd count rest hnet =>
    simp only [recordNetwork, hnet]
    cases hfind : g.clients.find? fd with
    | none => rw [hfind] at h; cases h
    | some client =>
      rw [hfind] at h
      cases h
      exact .buffers [] hnet ⟨rfl, rfl⟩ (by simp) hfind rfl
  case h_14 _ _ fd rest hnet =>
    simp only [recordNetwork, hnet]
    cases hfind : g.clients.find? fd <;> rw [hfind] at h <;> cases h
    · exact .tasks [] hnet ⟨rfl, rfl⟩ (by simp)
    · exact .tasks [.flush fd] hnet ⟨rfl, rfl⟩
        (by simp [Task.Plain, Task.Drains, pushing, delivering])
  case h_15 _ _ fd rest hnet =>
    simp only [recordNetwork, hnet]
    cases hfind : g.clients.find? fd with
    | none => rw [hfind] at h; cases h
    | some client =>
      rw [hfind] at h
      dsimp only at h
      split_ifs at h
      cases h
      exact .tasks [] hnet ⟨rfl, rfl⟩ (by simp)
  case h_16 _ _ fd rest r hnet =>
    simp only [recordNetwork, hnet]
    cases hfind : g.clients.find? fd with
    | none => rw [hfind] at h; cases h
    | some client =>
      rw [hfind] at h
      dsimp only at h
      split_ifs at h
      cases r with
      | sent count =>
        dsimp only at h
        split_ifs at h
        cases h
        exact .stays hnet ⟨rfl, rfl⟩ hfind rfl
      | wouldBlock =>
        cases h
        exact .tasks [] hnet ⟨rfl, rfl⟩ (by simp)
      | failed =>
        cases h
        exact .tasks [.closeConnection fd] hnet ⟨rfl, rfl⟩
          (by simp [Task.Plain, Task.Drains, pushing, delivering])
  case h_17 _ _ fd rest hnet =>
    simp only [recordNetwork, hnet]
    cases h
    refine .closes (g.clients.erase fd) hnet ⟨rfl, rfl⟩ fun fd' hf => ?_
    by_cases hfd : fd' = fd
    · rw [hfd, Clients.find?_erase_self] at hf
      exact absurd rfl hf
    · rwa [Clients.find?_erase_of_ne hfd] at hf
  case h_18 _ _ rest hnet =>
    simp only [recordNetwork, hnet]
    split at h <;> cases h
    exact .tasks [] hnet ⟨rfl, rfl⟩ (by simp)
  case h_19 _ _ rest hnet =>
    simp only [recordNetwork, hnet]
    cases h
    exact .closes .empty hnet ⟨rfl, rfl⟩ fun _ hf => absurd rfl hf
  case h_20 => cases h

/-- What an orderly list leaves behind its head. -/
theorem orderly_rest {t : Task} {rest : List Task} (h : Orderly g.network)
    (hnet : g.network = t :: rest) :
    Orderly rest ∧ pushing rest = [] ∧ (t.Drains → delivering rest = []) := by
  rwa [hnet, Orderly] at h

theorem NetworkMove.orderly {log' : Log} (h : Orderly g.network)
    (hmove : NetworkMove g log g' log') : Orderly g'.network := by
  cases hmove with
  | quiet hnet _ hnew _ =>
    obtain ⟨hrest, hpush, hdrain⟩ := orderly_rest h hnet
    exact .append hrest hpush (fun x hx => (hnew x hx).1) fun ⟨x, hx, hxd⟩ =>
      hdrain ((hnew x hx).2 hxd)
  | opened _ | retried => exact h
  | admitted hnet _ | delivered hnet _ =>
    obtain ⟨hrest, hpush, -⟩ := orderly_rest h hnet
    exact ⟨hrest, hpush, fun hd => hd.elim⟩
  | pushed hnet _ | dropped hnet _ => exact (orderly_rest h hnet).1
  | drained _ hnet =>
    obtain ⟨hrest, hpush, -⟩ := orderly_rest h hnet
    exact .deliver hrest hpush _

/-- The moves of the matching thread. -/
inductive MatchingMove (g : Gateway n) (log : Log) : Gateway n → Log → Prop
  | quiet {thread : Matching.Thread} : thread.batch = g.matching.batch →
      thread.pending = g.matching.pending → MatchingMove g log { g with matching := thread } log
  | popped (count : ℕ) : g.matching = .popBatch → 0 < count → count ≤ g.ingress.items.length →
      MatchingMove g log { g with
        ingress := (g.ingress.popBatch count).2,
        matching := .execute (g.ingress.popBatch count).1 } log
  | executed {msg : IngressMessage} {batch : List IngressMessage} {thread : Matching.Thread}
      {processed : UInt64} : g.matching = .execute (msg :: batch) → thread.batch = batch →
      thread.pending = msg.respond (executeCommand g.book msg).1 →
      MatchingMove g log { g with
        book := (executeCommand g.book msg).2, processedOrders := processed, matching := thread }
        { log with executed := log.executed ++ [msg] }
  | retried : MatchingMove g log g log
  | responded {resp : ResponseMessage} {batch : List IngressMessage}
      {responses : Fifo ResponseMessage n} {processed : UInt64} :
      g.matching = .respond resp batch → g.responses.push resp = some responses →
      MatchingMove g log { g with
        responses := responses, processedOrders := processed, matching := .execute batch } log

/-- Every step of the matching thread is a move of one of the kinds. -/
theorem matchingStep_move {popped : ℕ} (h : matchingStep popped g = some g') :
    MatchingMove g log g' (g.recordMatching log) := by
  unfold matchingStep at h
  split at h
  case h_1 _ hmatching =>
    simp only [recordMatching, hmatching]
    cases h
    refine .quiet ?_ ?_ <;> rw [hmatching] <;> split_ifs <;> rfl
  case h_2 _ hmatching =>
    simp only [recordMatching, hmatching]
    cases h
    refine .quiet ?_ ?_ <;> rw [hmatching] <;> split_ifs <;> rfl
  case h_3 _ hmatching =>
    simp only [recordMatching, hmatching]
    dsimp only at h
    split_ifs at h with hbatch hzero <;> cases h
    · exact .quiet (by rw [hmatching]; rfl) (by rw [hmatching]; rfl)
    · exact .popped popped hmatching (Nat.pos_of_ne_zero hzero) hbatch.2
  case h_4 _ hmatching =>
    simp only [recordMatching, hmatching]
    cases h
    exact .quiet (by rw [hmatching]; rfl) (by rw [hmatching]; rfl)
  case h_5 _ msg batch hmatching =>
    simp only [recordMatching, hmatching]
    dsimp only at h
    split_ifs at h with hpayload <;> cases h
    · exact .executed hmatching rfl (by rw [IngressMessage.respond, if_pos hpayload]; rfl)
    · exact .executed hmatching rfl (by rw [IngressMessage.respond, if_neg hpayload]; rfl)
  case h_6 _ resp batch hmatching =>
    simp only [recordMatching, hmatching]
    cases hpush : g.responses.push resp with
    | none => rw [hpush] at h; cases h; exact .retried
    | some responses => rw [hpush] at h; cases h; exact .responded hmatching hpush
  case h_7 => cases h

end Gateway

end Titan
