import Titan.Gateway.Framing

/-! What a connection is sent.

    Payloads are appended to a write buffer from two places and flushed from three, a write takes any
    part of the buffer, and descriptors are used again. Between all of that the bytes that were taken
    and those that wait are the payloads in their order. -/

namespace Titan
open Schemes Function

/-- What was sent over the connection of a descriptor: the payloads that were appended to its write
    buffer, and the bytes that `write` took of it. -/
structure Outflow where
  appended : Text := []
  accepted : Text := []

abbrev Outflows := Fd → Outflow

/-- What a task does to a write buffer. -/
inductive Output where
  | opened
  | payload (bytes : Text)
  | sent (count : ℕ)

namespace Gateway
variable {n : ℕ} {g g' : Gateway n} {a : Answer} {t : Task} {new rest : List Task}
  {clients : Clients} {fd : Fd}

/-- The write buffer that the next task changes. -/
def output (g : Gateway n) (a : Answer) : Option (Fd × Output) :=
  match g.network, a with
  | .acceptConnections :: _, .accepted (some fd) => some (fd, .opened)
  | .deliver resp :: _, .none =>
    (g.clients.find? resp.clientFd).map fun _ => (resp.clientFd, .payload resp.payload)
  | .processLine fd line :: _, .clock parsed _ =>
    let cmd := Protocol.parseLine parsed line
    if line ≠ [] ∧ cmd.type = .unknown
    then some (fd, .payload (Protocol.formatReject 0 cmd.errorMsg)) else none
  | .flush fd :: _, .wrote (.sent count) => some (fd, .sent count)
  | _, _ => none

def writeBuffer (g : Gateway n) (fd : Fd) : Text :=
  ((g.clients.find? fd).map (·.writeBuffer)).getD []

/-- The outflows after a step of the network thread. -/
def sendOut (g : Gateway n) (a : Answer) (outs : Outflows) : Outflows :=
  match g.output a with
  | none => outs
  | some (fd, .opened) => update outs fd {}
  | some (fd, .payload bytes) =>
    update outs fd { outs fd with appended := (outs fd).appended ++ bytes }
  | some (fd, .sent count) =>
    update outs fd { outs fd with accepted := (outs fd).accepted ++ (g.writeBuffer fd).take count }

end Gateway

def Outflows.record {n : ℕ} (outs : Outflows) (m : Move (Gateway n) Choice) : Outflows :=
  match m.choice with
  | .network a => m.before.sendOut a outs
  | .stop | .matching _ => outs

namespace Gateway
variable {n : ℕ} {g g' : Gateway n} {a : Answer} {t : Task} {new rest : List Task}
  {clients : Clients} {fd fd' : Fd} {client c : ClientConnection}

/-- How the write buffer of an open connection came to be. -/
inductive Buffered (g : Gateway n) (a : Answer) (fd : Fd) : Text → Prop
  | opened : g.output a = some (fd, .opened) → Buffered g a fd []
  | appended {bytes : Text} {old : ClientConnection} : g.clients.find? fd = some old →
      g.output a = some (fd, .payload bytes) → Buffered g a fd (old.writeBuffer ++ bytes)
  | sent {count : ℕ} {old : ClientConnection} : g.clients.find? fd = some old →
      g.output a = some (fd, .sent count) → Buffered g a fd (old.writeBuffer.drop count)
  | kept {old : ClientConnection} : g.clients.find? fd = some old →
      (∀ o, g.output a ≠ some (fd, o)) → Buffered g a fd old.writeBuffer

theorem of_find?_insert {cs : Clients} (h : (cs.insert c).find? fd = some client) :
    (fd = c.fd ∧ client = c) ∨ (fd ≠ c.fd ∧ cs.find? fd = some client) := by
  by_cases hfd : fd = c.fd
  · rw [hfd, Clients.find?_insert_self] at h
    cases h
    exact .inl ⟨hfd, rfl⟩
  · rw [Clients.find?_insert_of_ne hfd] at h
    exact .inr ⟨hfd, h⟩

/-- A line is skipped, rejected or passed on. -/
theorem networkStep_processLine {line : Text} {parsed ingress : Timestamp}
    (h : networkStep (.clock parsed ingress) g = some g')
    (hnet : g.network = .processLine fd line :: rest) :
    (g.output (.clock parsed ingress) = none ∧ g'.clients = g.clients) ∨
    ∃ client reject, g.clients.find? fd = some client ∧
      g.output (.clock parsed ingress) = some (fd, .payload reject) ∧
      g'.clients = g.clients.insert { client with writeBuffer := client.writeBuffer ++ reject } := by
  unfold networkStep at h
  unfold output
  rw [hnet] at h ⊢
  dsimp only at h ⊢
  cases hfind : g.clients.find? fd with
  | none =>
    rw [hfind] at h
    cases h
  | some client =>
    rw [hfind] at h
    dsimp only at h
    split_ifs at h with hline htype <;> cases h
    · exact .inl ⟨if_neg fun hno => hno.1 hline, rfl⟩
    · exact .inr ⟨client, _, rfl, if_pos ⟨hline, htype⟩, rfl⟩
    · exact .inl ⟨if_neg fun hno => htype hno.2, rfl⟩

/-- A write buffer is changed by the next task alone. -/
theorem networkStep_buffered (h : networkStep a g = some g')
    (hfind : g'.clients.find? fd = some client) : g.Buffered a fd client.writeBuffer := by
  obtain ⟨⟨t, new, rest, hnet, -, hdoes⟩, -⟩ := networkStep_does h
  have hkeep : g.output a = none → g.clients.find? fd = some client →
      g.Buffered a fd client.writeBuffer := by
    intro hnone hsame
    refine .kept hsame fun o ho => ?_
    rw [hnone] at ho
    cases ho
  have hwrite : ∀ {fd' : Fd} {c c' : ClientConnection} {o : Output}, g.clients.find? fd' = some c →
      (g.clients.insert c').find? fd = some client → c'.fd = c.fd → g.output a = some (fd', o) →
      g.Buffered a fd' c'.writeBuffer → g.Buffered a fd client.writeBuffer := by
    intro fd' c c' o hc hfind hfd hout hnew
    rw [Clients.fd_of_find? hc] at hfd
    rcases of_find?_insert hfind with ⟨rfl, rfl⟩ | ⟨hne, hsame⟩
    · rwa [hfd]
    · refine .kept hsame fun o' ho => ?_
      rw [hout] at ho
      cases ho
      exact hne hfd.symm
  have hread : ∀ {fd' : Fd} {c c' : ClientConnection}, g.clients.find? fd' = some c →
      (g.clients.insert c').find? fd = some client → c'.fd = c.fd →
      c'.writeBuffer = c.writeBuffer → g.output a = none →
      g.Buffered a fd client.writeBuffer := by
    intro fd' c c' hc hfind hfd hbuffer hnone
    rcases of_find?_insert hfind with ⟨rfl, rfl⟩ | ⟨-, hsame⟩
    · rw [hfd, Clients.fd_of_find? hc, hbuffer]
      refine .kept hc fun o ho => ?_
      rw [hnone] at ho
      cases ho
    · exact hkeep hnone hsame
  -- the row of `processLine` says too little
  have hline : ∀ {fd' : Fd} {line : Text} {parsed ingress : Timestamp},
      t = .processLine fd' line → a = .clock parsed ingress →
      g.Buffered a fd client.writeBuffer := by
    rintro fd' line parsed ingress rfl rfl
    rcases networkStep_processLine h hnet with ⟨hnone, hclients⟩ |
      ⟨c, reject, hc, hout, hclients⟩
    · rw [hclients] at hfind
      exact hkeep hnone hfind
    · rw [hclients] at hfind
      exact hwrite hc hfind rfl hout (.appended hc hout)
  generalize g'.clients = clients at hdoes hfind
  cases hdoes with
  | @deliver resp c hc =>
    have hout : g.output .none = some (resp.clientFd, .payload resp.payload) := by
      unfold output
      rw [hnet]
      dsimp only
      rw [hc]
      rfl
    exact hwrite hc hfind rfl hout (.appended hc hout)
  | drop hgone =>
    refine hkeep ?_ hfind
    unfold output
    rw [hnet]
    dsimp only
    rw [hgone]
    rfl
  | @accepted fd' hnew =>
    have hout : g.output (.accepted (some fd')) = some (fd', .opened) := by
      unfold output
      rw [hnet]
    rcases of_find?_insert hfind with ⟨rfl, rfl⟩ | ⟨hne, hsame⟩
    · exact .opened hout
    · refine .kept hsame fun o ho => ?_
      rw [hout] at ho
      cases ho
      exact hne rfl
  | chunk hc => exact hread hc hfind rfl rfl (by unfold output; rw [hnet])
  | erase hc => exact hread hc hfind rfl rfl (by unfold output; rw [hnet])
  | @sent fd' c count hc =>
    have hout : g.output (.wrote (.sent count)) = some (fd', .sent count) := by
      unfold output
      rw [hnet]
    exact hwrite hc hfind rfl hout (.sent hc hout)
  | skip | reject _ | command => exact hline rfl rfl
  | @close fd' =>
    refine hkeep (by unfold output; rw [hnet]) ?_
    by_cases hfd : fd = fd'
    · rw [hfd, Clients.find?_erase_self] at hfind
      cases hfind
    · rwa [Clients.find?_erase_of_ne hfd] at hfind
  | cleanUp => cases hfind
  | _ => exact hkeep (by unfold output; rw [hnet]) hfind

theorem sendOut_of_ne (outs : Outflows) (hout : ∀ o, g.output a ≠ some (fd, o)) :
    g.sendOut a outs fd = outs fd := by
  unfold sendOut
  cases ho : g.output a with
  | none => rfl
  | some o =>
    obtain ⟨fd', o⟩ := o
    have hne : fd ≠ fd' := by
      rintro rfl
      exact hout o ho
    cases o <;> (dsimp only; rw [update_of_ne hne])

/-- A flush ends when nothing is left, when the socket takes no more, or with a hard error. -/
theorem networkStep_flush (h : networkStep a g = some g') (hnet : g.network = .flush fd :: rest) :
    g'.network = .flush fd :: rest ∨ g'.network = .closeConnection fd :: rest ∨
    (g'.clients = g.clients ∧ (g.writeBuffer fd = [] ∨ a = .wrote .wouldBlock)) := by
  unfold networkStep at h
  rw [hnet] at h
  have hbuffer : ∀ {client : ClientConnection}, g.clients.find? fd = some client →
      g.writeBuffer fd = client.writeBuffer := by
    intro client hfind
    rw [writeBuffer, hfind]
    rfl
  cases a with
  | none =>
    dsimp only at h
    cases hfind : g.clients.find? fd <;> rw [hfind] at h <;> dsimp only at h
    · cases h
    split_ifs at h with hempty
    cases h
    exact .inr (.inr ⟨rfl, .inl ((hbuffer hfind).trans hempty)⟩)
  | wrote r =>
    dsimp only at h
    cases hfind : g.clients.find? fd <;> rw [hfind] at h <;> dsimp only at h
    · cases h
    split_ifs at h
    cases r with
    | sent count =>
      dsimp only at h
      split_ifs at h
      cases h
      exact .inl hnet
    | wouldBlock =>
      cases h
      exact .inr (.inr ⟨rfl, .inr rfl⟩)
    | failed =>
      cases h
      exact .inr (.inl rfl)
  | _ => cases h

end Gateway

/-- The bytes that were taken and the bytes that wait are those that were appended. -/
def Streams {n : ℕ} (g : Gateway n) (outs : Outflows) : Prop :=
  ∀ fd client, g.clients.find? fd = some client →
    (outs fd).accepted ++ client.writeBuffer = (outs fd).appended

theorem Streams.network {n : ℕ} {g g' : Gateway n} {outs : Outflows} {a : Answer}
    (h : Streams g outs) (hstep : Gateway.networkStep a g = some g') :
    Streams g' (g.sendOut a outs) := by
  intro fd client hfind
  have hbuffered := Gateway.networkStep_buffered hstep hfind
  generalize client.writeBuffer = buffer at hbuffered
  cases hbuffered with
  | opened hout =>
    unfold Gateway.sendOut
    rw [hout]
    dsimp only
    rw [update_self]
    rfl
  | @appended bytes old hold hout =>
    unfold Gateway.sendOut
    rw [hout]
    dsimp only
    rw [update_self, ← List.append_assoc, h fd old hold]
  | @sent count old hold hout =>
    unfold Gateway.sendOut
    rw [hout]
    dsimp only
    rw [update_self, List.append_assoc, Gateway.writeBuffer, hold]
    dsimp only [Option.map_some, Option.getD_some]
    rw [List.take_append_drop, h fd old hold]
  | @kept old hold hout => rw [Gateway.sendOut_of_ne outs hout, h fd old hold]

theorem Streams.of_trace {queueCapacity : UInt64} {book : PoolOrderBook} {serverFd : Fd}
    {ms : List (Move (Gateway _) Choice)} {g : Gateway _}
    (h : Trace Gateway.step (.start queueCapacity book serverFd) ms g) :
    Streams g (ms.foldl Outflows.record fun _ => {}) := by
  refine h.fold_invariant (P := fun _ => True) (I := Streams) _ ?_ ?_ fun _ _ => trivial
  · intro g outs a g' hstreams hstep _
    cases a with
    | stop =>
      cases hstep
      exact hstreams
    | network a => exact hstreams.network hstep
    | matching popped =>
      have hmove : g.MatchingMove {} g' (g.recordMatching {}) := Gateway.matchingStep_move hstep
      intro fd client hfind
      rw [hmove.clients_eq] at hfind
      exact hstreams fd client hfind
  · intro fd client hfind
    cases hfind

/-- Between all appends, flushes and partial writes the bytes that `write` took of an open connection
    and its write buffer are the payloads that were appended, in their order; and a flush that leaves
    the connection open leaves an empty buffer behind, or one that the socket would not take. -/
theorem outbound_integrity (queueCapacity : UInt64) (book : PoolOrderBook) (serverFd : Fd)
    {ms : List (Move (Gateway _) Choice)} {g : Gateway _}
    (h : Trace Gateway.step (.start queueCapacity book serverFd) ms g) :
    (∀ fd client, g.clients.find? fd = some client →
      let o := ms.foldl Outflows.record (fun _ => {}) fd
      o.accepted ++ client.writeBuffer = o.appended) ∧
    ∀ c g' fd rest client, Gateway.step c g = some g' → g.network = .flush fd :: rest →
      g'.network = rest → g'.clients.find? fd = some client →
        client.writeBuffer = [] ∨ c = .network (.wrote .wouldBlock) := by
  refine ⟨Streams.of_trace h, ?_⟩
  intro c g' fd rest client hstep hnet hended hfind
  have hmoved : g'.network ≠ g.network := by
    rw [hended, hnet]
    exact (List.cons_ne_self _ _).symm
  cases c with
  | stop =>
    cases hstep
    exact absurd rfl hmoved
  | network a =>
    rcases Gateway.networkStep_flush hstep hnet with hsame | hclosed | ⟨hclients, hdone⟩
    · exact absurd (hsame.trans hnet.symm) hmoved
    · rw [hended] at hclosed
      exact absurd hclosed.symm (List.cons_ne_self _ _)
    · rw [hclients] at hfind
      rw [Gateway.writeBuffer, hfind] at hdone
      exact hdone.imp id (congrArg Choice.network)
  | matching popped =>
    have hmove : g.MatchingMove {} g' (g.recordMatching {}) := Gateway.matchingStep_move hstep
    exact absurd hmove.network_eq hmoved

/-- A REJECT of which the socket takes four bytes. -/
def sendsPart : List Choice := clientSends "A\n" ++
  [.network .none, .network (.clock 0 0), .network (.wrote (.sent 4)), .network (.wrote .wouldBlock)]

theorem sendsPart_plays : (play Gateway.step (Gateway.start 1 (.ctor 1) 3) sendsPart).isSome := by
  decide

theorem outbound_integrity_sendsPart :
    let g := (play Gateway.step (Gateway.start 1 (.ctor 1) 3) sendsPart).get sendsPart_plays
    let o := (moves Gateway.step (.start 1 (.ctor 1) 3) sendsPart).foldl Outflows.record
      (fun _ => {}) 5
    o.accepted = "REJE".toList ∧ ∃ client, g.clients.find? 5 = some client ∧
      o.accepted ++ client.writeBuffer = o.appended := by
  refine ⟨by decide, _, (Option.some_get (by decide)).symm, ?_⟩
  exact (outbound_integrity 1 (.ctor 1) 3 (.of_play (Option.some_get _).symm)).1 5 _
    (Option.some_get _).symm

end Titan
