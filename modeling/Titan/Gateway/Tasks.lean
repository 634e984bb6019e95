import Titan.Gateway.Server

/-! What each task of the network thread leads to, and what it does to the connections.

    `Does` is the step function row by row, without the queues. The invariants of the task list and of
    the read buffers are proved from its rows. -/

namespace Titan
open Schemes

namespace Gateway
variable {n : ℕ} {g g' : Gateway n} {a : Answer}

/-- Doing the next task `t` with answer `a` puts the tasks `new` in its place and leaves the
    connections `clients`. -/
inductive Does (g : Gateway n) : Answer → Task → List Task → Clients → Prop
  | enter : g.running = true →
      Does g .none .whileRunning [.drainResponses, .epollWait, .drainResponses, .whileRunning]
        g.clients
  | leave : g.running = false →
      Does g .none .whileRunning [.join, .drainResponses, .cleanup] g.clients
  | drain {count : ℕ} (batch : List ResponseMessage) :
      Does g (.popped count) .drainResponses (batch.map .deliver) g.clients
  | drop {resp : ResponseMessage} : g.clients.find? resp.clientFd = none →
      Does g .none (.deliver resp) [] g.clients
  | deliver {resp : ResponseMessage} {client : ClientConnection} :
      g.clients.find? resp.clientFd = some client →
      Does g .none (.deliver resp) [.flush client.fd]
        (g.clients.insert { client with writeBuffer := client.writeBuffer ++ resp.payload })
  | wait (events : List ReadyEvent) :
      Does g (.ready events) .epollWait (events.map .event) g.clients
  | listening {e : ReadyEvent} : Does g .none (.event e) [.acceptConnections] g.clients
  | hungUp {e : ReadyEvent} : Does g .none (.event e) [.closeConnection e.fd] g.clients
  | ready {e : ReadyEvent} : Does g .none (.event e)
      ((if e.readable then [.clientRead e.fd] else []) ++
        (if e.writable then [.clientWrite e.fd] else [])) g.clients
  | acceptedAll : Does g (.accepted none) .acceptConnections [] g.clients
  | accepted {fd : Fd} : g.clients.find? fd = none →
      Does g (.accepted (some fd)) .acceptConnections [.acceptConnections]
        (g.clients.insert { fd := fd })
  | readUnknown {fd : Fd} : Does g .none (.clientRead fd) [] g.clients
  | read {fd : Fd} : Does g .none (.clientRead fd) [.readChunks fd] g.clients
  | chunk {fd : Fd} {client : ClientConnection} {bytes : Text} :
      g.clients.find? fd = some client →
      Does g (.read (.data bytes)) (.readChunks fd) [.readChunks fd]
        (g.clients.insert { client with readBuffer := client.readBuffer ++ bytes })
  | ended {fd : Fd} : Does g (.read .endOfStream) (.readChunks fd) [.closeConnection fd] g.clients
  | readFailed {fd : Fd} : Does g (.read .failed) (.readChunks fd) [.closeConnection fd] g.clients
  | readAll {fd : Fd} : Does g (.read .wouldBlock) (.readChunks fd) [.lines fd] g.clients
  | line {fd : Fd} {client : ClientConnection} : g.clients.find? fd = some client →
      '\n' ∈ client.readBuffer →
      Does g .none (.lines fd)
        [.processLine fd (lineAt client.readBuffer (client.readBuffer.idxOf '\n')),
          .eraseLine fd (client.readBuffer.idxOf '\n' + 1), .lines fd] g.clients
  | noLine {fd : Fd} {client : ClientConnection} : g.clients.find? fd = some client →
      '\n' ∉ client.readBuffer → Does g .none (.lines fd) [] g.clients
  | skip {fd : Fd} {parsed ingress : Timestamp} :
      Does g (.clock parsed ingress) (.processLine fd []) [] g.clients
  | reject {fd : Fd} {line reject : Text} {client : ClientConnection} {parsed ingress : Timestamp} :
      g.clients.find? fd = some client →
      Does g (.clock parsed ingress) (.processLine fd line) [.flush fd]
        (g.clients.insert { client with writeBuffer := client.writeBuffer ++ reject })
  | command {fd : Fd} {line : Text} {msg : IngressMessage} {parsed ingress : Timestamp} :
      Does g (.clock parsed ingress) (.processLine fd line) [.pushIngress msg] g.clients
  | retry {msg : IngressMessage} : g.ingress.push msg = none →
      Does g .none (.pushIngress msg) [.pushIngress msg] g.clients
  | push {msg : IngressMessage} : Does g .none (.pushIngress msg) [] g.clients
  | erase {fd : Fd} {count : ℕ} {client : ClientConnection} : g.clients.find? fd = some client →
      Does g .none (.eraseLine fd count) []
        (g.clients.insert { client with readBuffer := client.readBuffer.drop count })
  | writeUnknown {fd : Fd} : Does g .none (.clientWrite fd) [] g.clients
  | write {fd : Fd} : Does g .none (.clientWrite fd) [.flush fd] g.clients
  | flushed {fd : Fd} : Does g .none (.flush fd) [] g.clients
  | sent {fd : Fd} {client : ClientConnection} {count : ℕ} : g.clients.find? fd = some client →
      Does g (.wrote (.sent count)) (.flush fd) [.flush fd]
        (g.clients.insert { client with writeBuffer := client.writeBuffer.drop count })
  | writeBlocked {fd : Fd} : Does g (.wrote .wouldBlock) (.flush fd) [] g.clients
  | writeFailed {fd : Fd} : Does g (.wrote .failed) (.flush fd) [.closeConnection fd] g.clients
  | close {fd : Fd} : Does g .none (.closeConnection fd) [] (g.clients.erase fd)
  | join : g.matching = .exited → Does g .none .join [] g.clients
  | cleanUp : Does g .none .cleanup [] .empty

/-- Every step of the network thread does one task, and leaves alone what belongs to others. -/
theorem networkStep_does (h : networkStep a g = some g') : (∃ t new rest,
    g.network = t :: rest ∧ g'.network = new ++ rest ∧ Does g a t new g'.clients) ∧
    g'.running = g.running ∧ g'.matching = g.matching ∧ g'.book = g.book := by
  unfold networkStep at h
  split at h
  case h_1 _ _ rest hnet =>
    split_ifs at h with hrun <;> cases h
    · exact ⟨⟨_, _, rest, hnet, rfl, .enter hrun⟩, rfl, rfl, rfl⟩
    · exact ⟨⟨_, [.join, .drainResponses, .cleanup], rest, hnet, rfl,
        .leave (Bool.eq_false_iff.mpr hrun)⟩, rfl, rfl, rfl⟩
  case h_2 _ _ rest count hnet =>
    split_ifs at h
    cases h
    exact ⟨⟨_, _, rest, hnet, rfl, .drain _⟩, rfl, rfl, rfl⟩
  case h_3 _ _ resp rest hnet =>
    cases hfind : g.clients.find? resp.clientFd with
    | none =>
      rw [hfind] at h
      cases h
      exact ⟨⟨_, [], rest, hnet, rfl, .drop hfind⟩, rfl, rfl, rfl⟩
    | some client =>
      rw [hfind] at h
      cases h
      exact ⟨⟨_, [.flush client.fd], rest, hnet, rfl, .deliver hfind⟩, rfl, rfl, rfl⟩
  case h_4 _ _ rest events hnet =>
    split_ifs at h
    cases h
    exact ⟨⟨_, _, rest, hnet, rfl, .wait events⟩, rfl, rfl, rfl⟩
  case h_5 _ _ e rest hnet =>
    by_cases hserver : e.fd = g.serverFd
    · rw [if_pos hserver] at h
      cases h
      exact ⟨⟨_, [.acceptConnections], rest, hnet, rfl, .listening⟩, rfl, rfl, rfl⟩
    · rw [if_neg hserver] at h
      by_cases hup : e.hangUp = true
      · rw [if_pos hup] at h
        cases h
        exact ⟨⟨_, [.closeConnection e.fd], rest, hnet, rfl, .hungUp⟩, rfl, rfl, rfl⟩
      · rw [if_neg hup] at h
        cases h
        exact ⟨⟨_, _, rest, hnet, rfl, .ready⟩, rfl, rfl, rfl⟩
  case h_6 _ _ rest hnet =>
    cases h
    exact ⟨⟨_, [], rest, hnet, rfl, .acceptedAll⟩, rfl, rfl, rfl⟩
  case h_7 _ _ rest fd hnet =>
    split_ifs at h with hnew
    cases h
    exact ⟨⟨_, [.acceptConnections], rest, hnet, hnet, .accepted hnew.2⟩, rfl, rfl, rfl⟩
  case h_8 _ _ fd rest hnet =>
    cases hfind : g.clients.find? fd <;> rw [hfind] at h <;> cases h
    · exact ⟨⟨_, [], rest, hnet, rfl, .readUnknown⟩, rfl, rfl, rfl⟩
    · exact ⟨⟨_, [.readChunks fd], rest, hnet, rfl, .read⟩, rfl, rfl, rfl⟩
  case h_9 _ _ fd rest r hnet =>
    cases hfind : g.clients.find? fd with
    | none =>
      rw [hfind] at h
      cases h
    | some client =>
      rw [hfind] at h
      cases r with
      | data bytes =>
        dsimp only at h
        split_ifs at h
        cases h
        exact ⟨⟨_, [.readChunks fd], rest, hnet, hnet, .chunk hfind⟩, rfl, rfl, rfl⟩
      | endOfStream =>
        cases h
        exact ⟨⟨_, [.closeConnection fd], rest, hnet, rfl, .ended⟩, rfl, rfl, rfl⟩
      | wouldBlock =>
        cases h
        exact ⟨⟨_, [.lines fd], rest, hnet, rfl, .readAll⟩, rfl, rfl, rfl⟩
      | failed =>
        cases h
        exact ⟨⟨_, [.closeConnection fd], rest, hnet, rfl, .readFailed⟩, rfl, rfl, rfl⟩
  case h_10 _ _ fd rest hnet =>
    cases hfind : g.clients.find? fd with
    | none =>
      rw [hfind] at h
      cases h
    | some client =>
      rw [hfind] at h
      dsimp only at h
      split_ifs at h with hline <;> cases h
      · exact ⟨⟨_, _, rest, hnet, rfl, .line hfind hline⟩, rfl, rfl, rfl⟩
      · exact ⟨⟨_, [], rest, hnet, rfl, .noLine hfind hline⟩, rfl, rfl, rfl⟩
  case h_11 _ _ fd line rest parsed ingress hnet =>
    cases hfind : g.clients.find? fd with
    | none =>
      rw [hfind] at h
      cases h
    | some client =>
      rw [hfind] at h
      dsimp only at h
      split_ifs at h with hline <;> cases h
      · subst hline
        exact ⟨⟨_, [], rest, hnet, rfl, .skip⟩, rfl, rfl, rfl⟩
      · exact ⟨⟨_, [.flush fd], rest, hnet, rfl, .reject hfind⟩, rfl, rfl, rfl⟩
      · exact ⟨⟨_, [.pushIngress _], rest, hnet, rfl, .command⟩, rfl, rfl, rfl⟩
  case h_12 _ _ msg rest hnet =>
    cases hpush : g.ingress.push msg with
    | none =>
      rw [hpush] at h
      cases h
      exact ⟨⟨_, [.pushIngress msg], rest, hnet, hnet, .retry hpush⟩, rfl, rfl, rfl⟩
    | some ingress =>
      rw [hpush] at h
      cases h
      exact ⟨⟨_, [], rest, hnet, rfl, .push⟩, rfl, rfl, rfl⟩
  case h_13 _ _ fd count rest hnet =>
    cases hfind : g.clients.find? fd with
    | none =>
      rw [hfind] at h
      cases h
    | some client =>
      rw [hfind] at h
      cases h
      exact ⟨⟨_, [], rest, hnet, rfl, .erase hfind⟩, rfl, rfl, rfl⟩
  case h_14 _ _ fd rest hnet =>
    cases hfind : g.clients.find? fd <;> rw [hfind] at h <;> cases h
    · exact ⟨⟨_, [], rest, hnet, rfl, .writeUnknown⟩, rfl, rfl, rfl⟩
    · exact ⟨⟨_, [.flush fd], rest, hnet, rfl, .write⟩, rfl, rfl, rfl⟩
  case h_15 _ _ fd rest hnet =>
    cases hfind : g.clients.find? fd with
    | none =>
      rw [hfind] at h
      cases h
    | some client =>
      rw [hfind] at h
      dsimp only at h
      split_ifs at h
      cases h
      exact ⟨⟨_, [], rest, hnet, rfl, .flushed⟩, rfl, rfl, rfl⟩
  case h_16 _ _ fd rest r hnet =>
    cases hfind : g.clients.find? fd with
    | none =>
      rw [hfind] at h
      cases h
    | some client =>
      rw [hfind] at h
      dsimp only at h
      split_ifs at h
      cases r with
      | sent count =>
        dsimp only at h
        split_ifs at h
        cases h
        exact ⟨⟨_, [.flush fd], rest, hnet, hnet, .sent hfind⟩, rfl, rfl, rfl⟩
      | wouldBlock =>
        cases h
        exact ⟨⟨_, [], rest, hnet, rfl, .writeBlocked⟩, rfl, rfl, rfl⟩
      | failed =>
        cases h
        exact ⟨⟨_, [.closeConnection fd], rest, hnet, rfl, .writeFailed⟩, rfl, rfl, rfl⟩
  case h_17 _ _ fd rest hnet =>
    cases h
    exact ⟨⟨_, [], rest, hnet, rfl, .close⟩, rfl, rfl, rfl⟩
  case h_18 _ _ rest hnet =>
    split at h <;> cases h
    rename_i hexited
    exact ⟨⟨_, [], rest, hnet, rfl, .join hexited⟩, rfl, rfl, rfl⟩
  case h_19 _ _ rest hnet =>
    cases h
    exact ⟨⟨_, [], rest, hnet, rfl, .cleanUp⟩, rfl, rfl, rfl⟩
  case h_20 => cases h

end Gateway

end Titan
