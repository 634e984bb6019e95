import Titan.Gateway.Conversation
import Titan.Gateway.Descriptors
import Titan.Gateway.Lifetime
import Titan.Gateway.Shutdown
import Titan.Schemes.Fair

/-! What was admitted is served.

    When no client says anything more, the two threads go on by themselves: the matching thread
    executes what it was given, and the network thread goes round its loop and hands out the answers.
    If neither is forgotten, everything is answered, whatever the sockets take and whoever hangs up. -/

namespace Titan
open Schemes

/-- Which of the two threads a choice moves. -/
inductive Worker where | network | matching
  deriving DecidableEq

def Choice.worker : Choice → Option Worker
  | .stop => none
  | .network _ => some .network
  | .matching _ => some .matching

namespace Task

/-- A task of a pass of the loop in which nothing is accepted and no bytes come in. -/
def Quiet (serverFd : Fd) : Task → Prop
  | .whileRunning | .drainResponses | .deliver _ | .epollWait | .clientRead _ | .readChunks _
  | .clientWrite _ | .flush _ | .closeConnection _ => True
  | .event e => e.fd ≠ serverFd
  | _ => False

/-- How many steps a task takes at most, but for bytes that are sent and responses that are
    delivered. -/
def cost : Task → ℕ
  | .epollWait => 7 * maxEpollEvents + 1
  | .event _ => 7
  | .clientRead _ | .clientWrite _ => 3
  | .readChunks _ | .flush _ => 2
  | .closeConnection _ => 1
  | _ => 0

end Task

/-- How many steps it is at most to the next drain. -/
def untilDrain : List Task → ℕ
  | [] | .drainResponses :: _ => 0
  | .whileRunning :: _ => 1
  | t :: ts => t.cost + untilDrain ts

/-- The bytes that wait in the write buffers. -/
def Clients.buffered (cs : Clients) : ℕ := (cs.entries.entries.map (·.2.writeBuffer.length)).sum

namespace Gateway
variable {n : ℕ} {g g' : Gateway n}

/-- Nobody says anything: no connection comes, a read finds the end of the stream or an error, the
    server is not stopped, and a pop finds something if there is something. A socket takes what it
    likes, but for nothing at all without an error. -/
def Calm (g : Gateway n) : Choice → Prop
  | .stop => False
  | .network (.ready events) => ∀ e ∈ events, e.fd ≠ g.serverFd
  | .network (.read r) => r = .endOfStream ∨ r = .failed
  | .network (.popped count) => g.responses.items ≠ [] → 0 < count
  | .network (.wrote (.sent count)) => 0 < count
  | .network _ => True
  | .matching popped => g.ingress.items ≠ [] → 0 < popped

/-- The work that is left, by what is still to be done to each message. -/
def work (g : Gateway n) : ℕ :=
  13 * g.ingress.items.length + 10 * g.matching.batch.length + 9 * g.matching.pending.length +
    8 * g.responses.items.length + (delivering g.network).length

/-- Every message was dealt with. -/
def Settled (g : Gateway n) : Prop := g.work = 0

/-- How far the matching thread is from its next command. -/
def Matching.Thread.toGo : Matching.Thread → ℕ
  | .popBatch => 1
  | .testRunning => 2
  | _ => 3

/-- There are responses to hand out. -/
def hasAnswers (g : Gateway n) : Bool :=
  0 < g.responses.items.length + (delivering g.network).length

/-- The thread that has to move next: the answers go first. -/
def due (g : Gateway n) : Worker := if g.hasAnswers then .network else .matching

/-- How near that thread is to doing some work. -/
def rank (g : Gateway n) : ℕ :=
  if g.hasAnswers then untilDrain g.network + g.clients.buffered else Matching.Thread.toGo g.matching

/-- The gateway runs, and nothing comes in. -/
structure Serving (g : Gateway n) : Prop where
  running : g.running = true
  alive : g.matching ≠ .testEmpty ∧ g.matching ≠ .exited
  quiet : ∀ t ∈ g.network, t.Quiet g.serverFd
  loops : .whileRunning ∈ g.network
  orderly : Orderly g.network
  sound : g.Sound

/-- The moves of the network thread when nothing is accepted and no bytes come in. -/
inductive QuietMove (g : Gateway n) : Gateway n → Prop
  | loops {rest : List Task} : g.network = .whileRunning :: rest → QuietMove g { g with
      network := .drainResponses :: .epollWait :: .drainResponses :: .whileRunning :: rest }
  | drains (count : ℕ) {rest : List Task} : g.network = .drainResponses :: rest →
      (g.responses.items ≠ [] → 0 < count) → count ≤ g.responses.items.length → QuietMove g { g with
        responses := (g.responses.popBatch count).2,
        network := (g.responses.popBatch count).1.map .deliver ++ rest }
  | delivers {resp : ResponseMessage} {rest : List Task} {client : ClientConnection}
      {buffer : Text} : g.network = .deliver resp :: rest →
      g.clients.find? resp.clientFd = some client → QuietMove g
        { g.setClient { client with writeBuffer := buffer } with
          network := .flush client.fd :: rest }
  | drops {resp : ResponseMessage} {rest : List Task} : g.network = .deliver resp :: rest →
      QuietMove g { g with network := rest }
  | waits {events : List ReadyEvent} {rest : List Task} : g.network = .epollWait :: rest →
      events.length ≤ maxEpollEvents → (∀ e ∈ events, e.fd ≠ g.serverFd) →
      QuietMove g { g with network := events.map .event ++ rest }
  /-- A task gives way to others of less cost. -/
  | small {t : Task} (new : List Task) {rest : List Task} : g.network = t :: rest → t.Plain →
      ¬ t.Drains → (new.map Task.cost).sum < t.cost →
      (∀ x ∈ new, x.Quiet g.serverFd ∧ x.Plain ∧ ¬ x.Drains) →
      QuietMove g { g with network := new ++ rest }
  | sends {fd : Fd} {rest : List Task} {client : ClientConnection} {count : ℕ} :
      g.network = .flush fd :: rest → g.clients.find? fd = some client → 0 < count →
      count ≤ client.writeBuffer.length →
      QuietMove g (g.setClient { client with writeBuffer := client.writeBuffer.drop count })
  | closes {fd : Fd} {rest : List Task} : g.network = .closeConnection fd :: rest →
      QuietMove g { g with clients := g.clients.erase fd, network := rest }

/-- Where nothing is accepted and no bytes come in, a step of the network thread is a quiet move. -/
theorem networkStep_quiet {a : Answer} (h : networkStep a g = some g') (hrun : g.running = true)
    (hquiet : ∀ t ∈ g.network, t.Quiet g.serverFd) (hcalm : g.Calm (.network a)) :
    QuietMove g g' := by
  unfold networkStep at h
  split at h
  case h_1 _ _ rest hnet =>
    rw [if_pos hrun] at h
    cases h
    exact .loops hnet
  case h_2 _ _ rest count hnet =>
    split_ifs at h with hcount
    cases h
    exact .drains count hnet hcalm hcount.2.1
  case h_3 _ _ resp rest hnet =>
    cases hfind : g.clients.find? resp.clientFd with
    | none =>
      rw [hfind] at h
      cases h
      exact .drops hnet
    | some client =>
      rw [hfind] at h
      cases h
      exact .delivers hnet hfind
  case h_4 _ _ rest events hnet =>
    split_ifs at h with hlength
    cases h
    exact .waits hnet hlength hcalm
  case h_5 _ _ e rest hnet =>
    have hserver : e.fd ≠ g.serverFd := hquiet (.event e) (by simp [hnet])
    rw [if_neg hserver] at h
    by_cases hup : e.hangUp = true
    · rw [if_pos hup] at h
      cases h
      exact .small [.closeConnection e.fd] hnet ⟨rfl, rfl⟩ id (by simp [Task.cost])
        (List.forall_mem_singleton.mpr ⟨trivial, ⟨rfl, rfl⟩, id⟩)
    · rw [if_neg hup] at h
      cases h
      refine .small _ hnet ⟨rfl, rfl⟩ id ?_ fun x hx => ?_
      · split_ifs <;> simp [Task.cost]
      · have hx' : x = .clientRead e.fd ∨ x = .clientWrite e.fd := by
          split_ifs at hx <;> simp at hx <;> tauto
        rcases hx' with rfl | rfl <;> exact ⟨trivial, ⟨rfl, rfl⟩, id⟩
  case h_6 _ _ rest hnet | h_7 _ _ fd rest hnet => exact (hquiet .acceptConnections (by simp [hnet])).elim
  case h_8 _ _ fd rest hnet =>
    cases hfind : g.clients.find? fd <;> rw [hfind] at h <;> cases h
    · exact .small [] hnet ⟨rfl, rfl⟩ id (by simp [Task.cost]) (by simp)
    · exact .small [.readChunks fd] hnet ⟨rfl, rfl⟩ id (by simp [Task.cost])
        (List.forall_mem_singleton.mpr ⟨trivial, ⟨rfl, rfl⟩, id⟩)
  case h_9 _ _ fd rest r hnet =>
    have hcloses : g' = { g with network := [.closeConnection fd] ++ rest } := by
      cases hfind : g.clients.find? fd with
      | none => rw [hfind] at h; cases h
      | some client =>
        rw [hfind] at h
        rcases hcalm with rfl | rfl <;> cases h <;> rfl
    rw [hcloses]
    exact .small [.closeConnection fd] hnet ⟨rfl, rfl⟩ id (by simp [Task.cost])
      (List.forall_mem_singleton.mpr ⟨trivial, ⟨rfl, rfl⟩, id⟩)
  case h_10 _ _ fd rest hnet => exact (hquiet (.lines fd) (by simp [hnet])).elim
  case h_11 _ _ fd line rest _ _ hnet =>
    exact (hquiet (.processLine fd line) (by simp [hnet])).elim
  case h_12 _ _ msg rest hnet => exact (hquiet (.pushIngress msg) (by simp [hnet])).elim
  case h_13 _ _ fd count rest hnet => exact (hquiet (.eraseLine fd count) (by simp [hnet])).elim
  case h_14 _ _ fd rest hnet =>
    cases hfind : g.clients.find? fd <;> rw [hfind] at h <;> cases h
    · exact .small [] hnet ⟨rfl, rfl⟩ id (by simp [Task.cost]) (by simp)
    · exact .small [.flush fd] hnet ⟨rfl, rfl⟩ id (by simp [Task.cost])
        (List.forall_mem_singleton.mpr ⟨trivial, ⟨rfl, rfl⟩, id⟩)
  case h_15 _ _ fd rest hnet =>
    cases hfind : g.clients.find? fd with
    | none => rw [hfind] at h; cases h
    | some client =>
      rw [hfind] at h
      dsimp only at h
      split_ifs at h
      cases h
      exact .small [] hnet ⟨rfl, rfl⟩ id (by simp [Task.cost]) (by simp)
  case h_16 _ _ fd rest r hnet =>
    cases hfind : g.clients.find? fd with
    | none => rw [hfind] at h; cases h
    | some client =>
      rw [hfind] at h
      dsimp only at h
      split_ifs at h
      cases r with
      | sent count =>
        dsimp only at h
        split_ifs at h with hle
        cases h
        exact .sends hnet hfind hcalm hle
      | wouldBlock =>
        cases h
        exact .small [] hnet ⟨rfl, rfl⟩ id (by simp [Task.cost]) (by simp)
      | failed =>
        cases h
        exact .small [.closeConnection fd] hnet ⟨rfl, rfl⟩ id (by simp [Task.cost])
          (List.forall_mem_singleton.mpr ⟨trivial, ⟨rfl, rfl⟩, id⟩)
  case h_17 _ _ fd rest hnet =>
    cases h
    exact .closes hnet
  case h_18 _ _ rest hnet => exact (hquiet .join (by simp [hnet])).elim
  case h_19 _ _ rest hnet => exact (hquiet .cleanup (by simp [hnet])).elim
  case h_20 => cases h

end Gateway

/-! ### How far it is -/

theorem untilDrain_cons {t : Task} (ht : ¬ t.Drains) (ts : List Task) :
    untilDrain (t :: ts) = t.cost + untilDrain ts := by
  cases t with
  | whileRunning | drainResponses => exact absurd trivial ht
  | _ => rfl

theorem untilDrain_append (ts : List Task) {new : List Task} (hnew : ∀ t ∈ new, ¬ t.Drains) :
    untilDrain (new ++ ts) = (new.map Task.cost).sum + untilDrain ts := by
  induction new with
  | nil => simp
  | cons t new ih =>
    obtain ⟨ht, hnew⟩ := List.forall_mem_cons.mp hnew
    rw [List.cons_append, untilDrain_cons ht, ih hnew, List.map_cons, List.sum_cons, Nat.add_assoc]

theorem cost_events (events : List ReadyEvent) :
    ((events.map Task.event).map Task.cost).sum = 7 * events.length := by
  induction events with
  | nil => rfl
  | cons e events ih =>
    rw [List.map_cons, List.map_cons, List.sum_cons, ih, Task.cost, List.length_cons]
    omega

namespace Clients
variable {cs : Clients} {client c : ClientConnection} {fd : Fd}

/-- A connection that was there is replaced. -/
theorem buffered_insert (h : cs.find? fd = some c) (hfd : client.fd = c.fd) :
    (cs.insert client).buffered + c.writeBuffer.length =
      cs.buffered + client.writeBuffer.length := by
  obtain ⟨pre, post, hm⟩ := SortedMap.find?_eq_some_iff.mp h
  have hkey : client.fd = fd := hfd.trans (fd_of_find? h)
  rw [← hkey] at hm
  have hnew : (cs.insert client).entries.entries = pre ++ (client.fd, client) :: post :=
    SortedMap.entries_insert_of_cut hm client
  rw [buffered, buffered, hm, hnew]
  simp only [List.map_append, List.map_cons, List.sum_append, List.sum_cons]
  omega

theorem buffered_erase_le (cs : Clients) (fd : Fd) : (cs.erase fd).buffered ≤ cs.buffered :=
  (List.filter_sublist.map _).sum_le_sum fun _ _ => Nat.zero_le _

end Clients

theorem pushing_of_quiet {serverFd : Fd} : ∀ {ts : List Task}, (∀ t ∈ ts, t.Quiet serverFd) →
    pushing ts = []
  | [], _ => rfl
  | t :: ts, h => by
    obtain ⟨ht, hts⟩ := List.forall_mem_cons.mp h
    have ih := pushing_of_quiet hts
    cases t with
    | pushIngress msg => exact ht.elim
    | _ => exact ih

namespace Gateway
variable {n : ℕ} {g g' : Gateway n}

/-- The network thread does some work, or comes nearer to its next drain. -/
theorem QuietMove.helps (h : QuietMove g g') (horderly : Orderly g.network) :
    g'.work < g.work ∨ (g'.work = g.work ∧ g'.hasAnswers = g.hasAnswers ∧
      g'.matching = g.matching ∧ (g.hasAnswers = true →
        untilDrain g'.network + g'.clients.buffered < untilDrain g.network + g.clients.buffered)) := by
  -- a move that leaves the messages alone
  have haside : g'.ingress = g.ingress → g'.responses = g.responses → g'.matching = g.matching →
      delivering g'.network = delivering g.network →
      untilDrain g'.network + g'.clients.buffered < untilDrain g.network + g.clients.buffered →
      g'.work < g.work ∨ (g'.work = g.work ∧ g'.hasAnswers = g.hasAnswers ∧
      g'.matching = g.matching ∧ (g.hasAnswers = true →
        untilDrain g'.network + g'.clients.buffered <
          untilDrain g.network + g.clients.buffered)) := by
    intro hi hr hm hd hlt
    refine .inr ⟨?_, ?_, hm, fun _ => hlt⟩
    · rw [work, work, hi, hr, hm, hd]
    · rw [hasAnswers, hasAnswers, hr, hd]
  cases h with
  | loops hnet =>
    refine haside rfl rfl rfl (by rw [hnet]; rfl) ?_
    rw [hnet]
    simp [untilDrain]
  | @drains count rest hnet hsome hle =>
    have hnone := (orderly_rest horderly hnet).2.2 trivial
    by_cases hempty : g.responses.items = []
    · refine .inr ?_
      have hno : g.hasAnswers = false := by simp [hasAnswers, hempty, hnet, delivering, hnone]
      refine ⟨?_, ?_, rfl, fun hyes => ?_⟩
      · simp [work, hempty, hnet, delivering, hnone, Fifo.popBatch]
      · rw [hno]
        simp [hasAnswers, hempty, hnone, Fifo.popBatch]
      · rw [hno] at hyes
        cases hyes
    · refine .inl ?_
      have hpos := hsome hempty
      have htake : (g.responses.popBatch count).1.length = count := by
        rw [Fifo.popBatch, List.length_take]
        omega
      simp only [work, hnet, delivering, delivering_append, delivering_deliver, hnone,
        List.length_append, List.length_nil, htake, Fifo.items_popBatch, List.length_drop]
      omega
  | delivers hnet hfind =>
    refine .inl ?_
    simp only [work, hnet, delivering, List.length_cons, setClient]
    omega
  | drops hnet =>
    refine .inl ?_
    simp only [work, hnet, delivering, List.length_cons]
    omega
  | @waits events rest hnet hlength _ =>
    have hevents : ∀ x ∈ events.map Task.event, x.Plain ∧ ¬ x.Drains := fun x hx => by
      obtain ⟨e, -, rfl⟩ := List.mem_map.mp hx
      exact ⟨⟨rfl, rfl⟩, id⟩
    refine haside rfl rfl rfl ?_ ?_
    · rw [hnet]
      dsimp only
      rw [delivering_append, delivering_plain fun x hx => (hevents x hx).1]
      rfl
    · rw [hnet]
      dsimp only
      rw [untilDrain_append rest fun x hx => (hevents x hx).2, cost_events,
        untilDrain_cons (t := .epollWait) id, Task.cost]
      omega
  | @small t new rest hnet hplain hdrains hcost hnew =>
    refine haside rfl rfl rfl ?_ ?_
    · rw [hnet, ← List.singleton_append, delivering_append, delivering_append, hplain.2,
        delivering_plain fun x hx => (hnew x hx).2.1]
    · rw [hnet, untilDrain_cons hdrains]
      dsimp only
      rw [untilDrain_append rest fun x hx => (hnew x hx).2.2]
      omega
  | @sends fd rest client count hnet hfind hpos hle =>
    refine haside rfl rfl rfl rfl ?_
    have hbuffered := Clients.buffered_insert hfind
      (show { client with writeBuffer := client.writeBuffer.drop count }.fd = client.fd from rfl)
    simp only [List.length_drop] at hbuffered
    simp only [setClient]
    omega
  | @closes fd rest hnet =>
    refine haside rfl rfl rfl (by rw [hnet]; rfl) ?_
    have := g.clients.buffered_erase_le fd
    rw [hnet, untilDrain_cons (t := .closeConnection fd) id, Task.cost]
    dsimp only
    omega

/-- While the server runs, the matching thread does not go to its exit. -/
theorem matchingStep_alive {popped : ℕ} (h : matchingStep popped g = some g')
    (hrun : g.running = true) (halive : g.matching ≠ .testEmpty ∧ g.matching ≠ .exited) :
    g'.matching ≠ .testEmpty ∧ g'.matching ≠ .exited := by
  obtain ⟨htest, hexit, -⟩ := matchingStep_exit h
  refine ⟨fun he => ?_, fun he => halive.1 (hexit he).1⟩
  have hstopped := htest he
  rw [hrun] at hstopped
  cases hstopped

/-- The matching thread does some work, or comes nearer to its next command. -/
theorem matchingStep_helps (hn : 0 < n) {popped : ℕ} (h : matchingStep popped g = some g')
    (hcalm : g.ingress.items ≠ [] → 0 < popped) (hrun : g.running = true)
    (halive : g.matching ≠ .testEmpty ∧ g.matching ≠ .exited) :
    g'.work < g.work ∨ (g'.work = g.work ∧ g'.responses = g.responses ∧
      (g.hasAnswers = false → ¬ g.Settled →
        Matching.Thread.toGo g'.matching < Matching.Thread.toGo g.matching)) := by
  have hno : g.hasAnswers = false →
      g.responses.items.length + (delivering g.network).length = 0 := by simp [hasAnswers]
  unfold matchingStep at h
  split at h
  case h_1 hm =>
    cases h
    rw [if_pos hrun]
    refine .inr ⟨?_, rfl, fun _ _ => ?_⟩
    · simp [work, hm, Matching.Thread.batch, Matching.Thread.pending]
    · simp [hm, Matching.Thread.toGo]
  case h_2 hm => exact absurd hm halive.1
  case h_3 hm =>
    dsimp only at h
    split_ifs at h with hbound hzero
    · cases h
      refine .inr ⟨?_, rfl, fun hanswers hwork => ?_⟩
      · simp [work, hm, Matching.Thread.batch, Matching.Thread.pending]
      · -- nothing is left
        have hnone := hno hanswers
        have hempty : g.ingress.items = [] := by
          by_contra hne
          have hpos := hcalm hne
          omega
        refine absurd ?_ hwork
        simp only [Settled, work, hm, Matching.Thread.batch, Matching.Thread.pending,
          List.length_nil, hempty]
        omega
    · cases h
      refine .inl ?_
      have htake : (g.ingress.popBatch popped).1.length = popped := by
        rw [Fifo.popBatch, List.length_take]
        omega
      simp only [work, hm, Matching.Thread.batch, Matching.Thread.pending, List.length_nil, htake,
        Fifo.items_popBatch, List.length_drop]
      omega
  case h_4 hm =>
    cases h
    refine .inr ⟨?_, rfl, fun _ _ => ?_⟩
    · simp [work, hm, Matching.Thread.batch, Matching.Thread.pending]
    · simp [hm, Matching.Thread.toGo]
  case h_5 msg batch hm =>
    dsimp only at h
    split_ifs at h <;> cases h <;> refine .inl ?_ <;>
      simp only [work, hm, Matching.Thread.batch, Matching.Thread.pending, List.length_nil,
        List.length_cons] <;> omega
  case h_6 resp batch hm =>
    cases hpush : g.responses.push resp with
    | none =>
      rw [hpush] at h
      cases h
      refine .inr ⟨rfl, rfl, fun hanswers _ => ?_⟩
      -- the queue is full, so there are answers
      have hfull := Fifo.push_eq_none_iff.mp hpush
      have hnone := hno hanswers
      omega
    | some responses =>
      rw [hpush] at h
      cases h
      refine .inl ?_
      obtain ⟨-, hitems⟩ := Fifo.push_eq_some_iff.mp hpush
      simp only [work, hm, Matching.Thread.batch, Matching.Thread.pending, hitems,
        List.length_append, List.length_nil, List.length_singleton]
      omega
  case h_7 hm => exact absurd hm halive.2

theorem MatchingMove.running_eq {log log' : Log} (h : g.MatchingMove log g' log') :
    g'.running = g.running := by
  cases h <;> rfl

namespace Serving

theorem not_failsReject (h : g.Serving) (c : Choice) : g.failsReject c = false := by
  unfold failsReject
  split
  · split
    · rename_i hnet
      rename_i fd fd' count rest
      exact (h.quiet (.eraseLine fd' count) (by simp [hnet])).elim
    · rfl
  · rfl

theorem network {a : Answer} (h : g.Serving) (hstep : networkStep a g = some g')
    (hcalm : g.Calm (.network a)) : g'.Serving := by
  have hquiet := networkStep_quiet hstep h.running h.quiet hcalm
  have hmove : g.NetworkMove {} g' (g.recordNetwork {} a) := networkStep_move hstep
  have hsound : g'.Sound := h.sound.move (c := .network a) hstep (h.not_failsReject _)
  obtain ⟨-, hrun, hmatching, -⟩ := networkStep_does hstep
  have htasks : (∀ t ∈ g'.network, t.Quiet g.serverFd) ∧ .whileRunning ∈ g'.network := by
    have hq := h.quiet
    have hl := h.loops
    cases hquiet with
    | loops hnet =>
      rw [hnet] at hq
      obtain ⟨-, hq⟩ := List.forall_mem_cons.mp hq
      refine ⟨?_, by simp⟩
      simp only [List.forall_mem_cons, Task.Quiet, true_and]
      exact hq
    | drops hnet | closes hnet | delivers hnet _ =>
      rw [hnet] at hq hl
      obtain ⟨-, hq⟩ := List.forall_mem_cons.mp hq
      refine ⟨?_, by simpa using hl⟩
      simp only [List.forall_mem_cons, Task.Quiet, true_and]
      exact hq
    | drains _ hnet _ _ =>
      rw [hnet] at hq hl
      obtain ⟨-, hq⟩ := List.forall_mem_cons.mp hq
      refine ⟨fun x hx => (List.mem_append.mp hx).elim (fun hx => ?_) (hq x), ?_⟩
      · obtain ⟨resp, -, rfl⟩ := List.mem_map.mp hx
        trivial
      · exact List.mem_append_right _ (by simpa using hl)
    | waits hnet _ hevents =>
      rw [hnet] at hq hl
      obtain ⟨-, hq⟩ := List.forall_mem_cons.mp hq
      refine ⟨fun x hx => (List.mem_append.mp hx).elim (fun hx => ?_) (hq x), ?_⟩
      · obtain ⟨e, he, rfl⟩ := List.mem_map.mp hx
        exact hevents e he
      · exact List.mem_append_right _ (by simpa using hl)
    | @small t new rest hnet _ hdrains _ hnew =>
      rw [hnet] at hq hl
      obtain ⟨-, hq⟩ := List.forall_mem_cons.mp hq
      refine ⟨fun x hx => (List.mem_append.mp hx).elim (fun hx => (hnew x hx).1) (hq x), ?_⟩
      refine List.mem_append_right _ ((List.mem_cons.mp hl).resolve_left ?_)
      rintro rfl
      exact hdrains trivial
    | sends _ _ _ _ => exact ⟨hq, hl⟩
  refine ⟨hrun.trans h.running, hmatching ▸ h.alive, ?_, htasks.2, hmove.orderly h.orderly, hsound⟩
  rw [hmove.serverFd_eq]
  exact htasks.1

theorem matching {popped : ℕ} (h : g.Serving) (hstep : matchingStep popped g = some g') :
    g'.Serving := by
  have hmove : g.MatchingMove {} g' (g.recordMatching {}) := matchingStep_move hstep
  have hnet := hmove.network_eq
  have halive := matchingStep_alive hstep h.running h.alive
  have hsound : g'.Sound := h.sound.move (c := .matching popped) hstep (h.not_failsReject _)
  refine ⟨hmove.running_eq.trans h.running, halive, ?_, hnet ▸ h.loops, hnet ▸ h.orderly, hsound⟩
  rw [hnet, hmove.serverFd_eq]
  exact h.quiet

/-- Both threads serve, and one of them helps. -/
theorem move (hn : 0 < n) (c : Choice) (h : g.Serving) (hopen : ¬ g.Settled)
    (hstep : step c g = some g') (hcalm : g.Calm c) :
    g'.Serving ∧ Endless.Helps Choice.worker work rank due ⟨g, c, g'⟩ := by
  cases c with
  | stop => exact hcalm.elim
  | network a =>
    refine ⟨h.network hstep hcalm, ?_⟩
    have hquiet := networkStep_quiet hstep h.running h.quiet hcalm
    refine (hquiet.helps h.orderly).imp id ?_
    rintro ⟨hwork, hsame, hmatching, hnear⟩
    refine ⟨hwork, by simp only [due, hsame], ?_, fun hdue => ?_⟩
    · simp only [rank, hsame]
      split_ifs with hyes
      · exact (hnear hyes).le
      · rw [hmatching]
    · have hyes : g.hasAnswers = true := by
        by_contra hno
        simp [Choice.worker, due, hno] at hdue
      simp only [rank, hsame, if_pos hyes]
      exact hnear hyes
  | matching popped =>
    refine ⟨h.matching hstep, ?_⟩
    have hmove : g.MatchingMove {} g' (g.recordMatching {}) := matchingStep_move hstep
    refine (matchingStep_helps hn hstep hcalm h.running h.alive).imp id ?_
    rintro ⟨hwork, hresponses, hnear⟩
    have hsame : g'.hasAnswers = g.hasAnswers := by
      rw [hasAnswers, hasAnswers, hresponses, hmove.network_eq]
    refine ⟨hwork, by simp only [due, hsame], ?_, fun hdue => ?_⟩
    · simp only [rank, hsame, hmove.network_eq, hmove.clients_eq]
      split_ifs with hyes
      · exact le_rfl
      · exact (hnear (Bool.eq_false_iff.mpr hyes) hopen).le
    · have hno : g.hasAnswers = false := by
        by_contra hyes
        simp [Choice.worker, due, hyes] at hdue
      simp only [rank, hsame, hno]
      exact hnear hno hopen

/-- Both threads can always move. -/
theorem exists_move (h : g.Serving) (w : Worker) :
    ∃ c g', step c g = some g' ∧ g.Calm c ∧ c.worker = some w := by
  cases w with
  | matching =>
    refine ⟨.matching (min batchSize g.ingress.items.length), ?_⟩
    suffices hsome : (matchingStep (min batchSize g.ingress.items.length) g).isSome by
      obtain ⟨g', hg'⟩ := Option.isSome_iff_exists.mp hsome
      exact ⟨g', hg', fun hne => lt_min (by decide) (List.length_pos_iff.mpr hne), rfl⟩
    unfold matchingStep
    split
    · rfl
    · rfl
    · dsimp only
      rw [if_pos ⟨min_le_left .., min_le_right ..⟩]
      split_ifs <;> rfl
    · rfl
    · dsimp only
      split_ifs <;> rfl
    · split <;> rfl
    · rename_i hm
      exact absurd hm h.alive.2
  | network =>
    suffices hsome : ∃ a, g.Calm (.network a) ∧ (networkStep a g).isSome by
      obtain ⟨a, hcalm, hsome⟩ := hsome
      obtain ⟨g', hg'⟩ := Option.isSome_iff_exists.mp hsome
      exact ⟨.network a, g', hg', hcalm, rfl⟩
    obtain ⟨t, rest, hnet⟩ := List.exists_cons_of_ne_nil (List.ne_nil_of_mem h.loops)
    have hquiet := h.quiet t (by simp [hnet])
    cases t with
    | whileRunning => exact ⟨.none, trivial, by simp [networkStep, hnet, h.running]⟩
    | drainResponses =>
      refine ⟨.popped (min batchSize g.responses.items.length),
        fun hne => lt_min (by decide) (List.length_pos_iff.mpr hne), ?_⟩
      simp [networkStep, hnet]
    | deliver resp =>
      refine ⟨.none, trivial, ?_⟩
      simp only [networkStep, hnet]
      cases g.clients.find? resp.clientFd <;> rfl
    | epollWait => exact ⟨.ready [], nofun, by simp [networkStep, hnet]⟩
    | event e =>
      refine ⟨.none, trivial, ?_⟩
      simp only [networkStep, hnet]
      split_ifs <;> rfl
    | clientRead fd =>
      refine ⟨.none, trivial, ?_⟩
      simp only [networkStep, hnet]
      cases g.clients.find? fd <;> rfl
    | readChunks fd =>
      have hlive := h.sound.2 (.readChunks fd) (by simp [hnet]) fd rfl
      obtain ⟨client, hfind⟩ := Option.ne_none_iff_exists'.mp hlive
      exact ⟨.read .endOfStream, .inl rfl, by simp [networkStep, hnet, hfind]⟩
    | clientWrite fd =>
      refine ⟨.none, trivial, ?_⟩
      simp only [networkStep, hnet]
      cases g.clients.find? fd <;> rfl
    | flush fd =>
      have hlive := h.sound.2 (.flush fd) (by simp [hnet]) fd rfl
      obtain ⟨client, hfind⟩ := Option.ne_none_iff_exists'.mp hlive
      by_cases hempty : client.writeBuffer = []
      · exact ⟨.none, trivial, by simp [networkStep, hnet, hfind, hempty]⟩
      · exact ⟨.wrote .wouldBlock, trivial, by simp [networkStep, hnet, hfind, hempty]⟩
    | closeConnection fd => exact ⟨.none, trivial, by simp [networkStep, hnet]⟩
    | _ => exact hquiet.elim

/-- Nothing is admitted. -/
theorem admits_eq_nil (h : g.Serving) (a : Answer) : g.admits a = [] := by
  unfold admits
  split
  · split
    · rename_i fd line rest hnet
      exact (h.quiet (.processLine fd line) (by simp [hnet])).elim
    · rfl
  · rfl

/-- Between two passes of its loop the gateway serves. -/
theorem of_trace {queueCapacity : UInt64} {initial : PoolOrderBook} {serverFd : Fd}
    {ms : List (Move (Gateway _) Choice)} {g : Gateway _}
    (h : Trace Gateway.step (.start queueCapacity initial serverFd) ms g)
    (hrun : g.running = true) (hnet : g.network = [.whileRunning]) : g.Serving := by
  have halive : g.running = true → g.matching ≠ .testEmpty ∧ g.matching ≠ .exited := by
    refine h.invariant (P := fun _ => True) (I := fun g => g.running = true →
      g.matching ≠ .testEmpty ∧ g.matching ≠ .exited) ?_ (fun _ => ⟨nofun, nofun⟩)
      fun _ _ => trivial
    intro g c g' hg hstep _ hrun'
    cases c with
    | stop =>
      cases hstep
      cases hrun'
    | network a =>
      obtain ⟨-, hrun, hmatching, -⟩ := networkStep_does hstep
      rw [hmatching]
      exact hg (hrun ▸ hrun')
    | matching popped =>
      have hmove : g.MatchingMove {} g' (g.recordMatching {}) := matchingStep_move hstep
      have hrun : g.running = true := hmove.running_eq ▸ hrun'
      exact matchingStep_alive hstep hrun (hg hrun)
  refine ⟨hrun, halive hrun, ?_, ?_, ?_, ?_, ?_⟩
  · simp [hnet, Task.Quiet]
  · simp [hnet]
  · rw [hnet]
    exact ⟨trivial, rfl, fun _ => rfl⟩
  · rw [hnet]
    exact ⟨trivial, nofun⟩
  · rw [hnet]
    simp [Live, Task.user]

end Serving

end Gateway

/-- What was admitted by the time that the clients fall silent is served: in every run that goes on
    from there and forgets neither thread, and there are such runs, the time comes when all commands
    have been executed and all responses handed out, whatever the sockets take and whichever clients
    hang up. -/
theorem fair_run_serves (queueCapacity : UInt64) (hcapacity : queueCapacity.toNat ≤ 2 ^ 63)
    (initial : PoolOrderBook) (serverFd : Fd) {ms : List (Move (Gateway _) Choice)} {g : Gateway _}
    (h : Trace Gateway.step (.start queueCapacity initial serverFd) ms g)
    (hrun : g.running = true) (hnet : g.network = [.whileRunning]) :
    (∃ r : Endless Gateway.step, r.state 0 = g ∧ (∀ i, (r.state i).Calm (r.choice i)) ∧
      r.Fair Choice.worker) ∧
    ∀ r : Endless Gateway.step, r.state 0 = g → (∀ i, (r.state i).Calm (r.choice i)) →
      r.Fair Choice.worker → ∃ i,
        let admitted := (ms.foldl Log.record {}).admitted
        let log := (ms ++ r.upTo i).foldl Log.record {}
        log.admitted = admitted ∧ log.executed = admitted ∧
        log.handled = (runCommands initial admitted).1 ∧
        (log.opened.Nodup → ∀ fd, (r.state i).clients.find? fd ≠ none →
          answersTo log fd = payloadsTo (runCommands initial admitted).1 fd) := by
  have hserving := Gateway.Serving.of_trace h hrun hnet
  have hn : 0 < (roundUpPowerOfTwo queueCapacity).toNat := by
    obtain ⟨e, -, he⟩ := roundUpPowerOfTwo_pow hcapacity
    rw [he]
    exact Nat.two_pow_pos e
  refine ⟨?_, ?_⟩
  · refine Endless.exists_fair (I := Gateway.Serving) (P := fun m => m.before.Calm m.choice)
      Choice.worker (fun i => if i % 2 = 0 then .network else .matching) ?_ ?_ hserving
    · rintro (_ | _) i
      · exact ⟨2 * i, by omega, by simp⟩
      · exact ⟨2 * i + 1, by omega, if_neg (by omega)⟩
    · intro g w hg
      obtain ⟨c, g', hstep, hcalm, hw⟩ := hg.exists_move w
      refine ⟨c, g', hstep, hcalm, hw, ?_⟩
      cases c with
      | stop => cases hw
      | network a => exact hg.network hstep hcalm
      | matching popped => exact hg.matching hstep
  · rintro r rfl hcalm hfair
    obtain ⟨i, hsettled⟩ := r.eventually (I := Gateway.Serving) (G := Gateway.Settled)
      (P := fun m => m.before.Calm m.choice)
      (fun g c g' hg hopen hstep hcalm => hg.move hn c hopen hstep hcalm) hfair hcalm hserving
    refine ⟨i, ?_⟩
    -- nothing is admitted on the way
    have hlog : (r.state i).Serving ∧ ((ms ++ r.upTo i).foldl Log.record {}).admitted =
        (ms.foldl Log.record {}).admitted := by
      rw [List.foldl_append]
      refine (r.trace i).fold_invariant (I := fun g log => g.Serving ∧
        log.admitted = (ms.foldl Log.record {}).admitted) (P := fun m => m.before.Calm m.choice)
        Log.record ?_ ⟨hserving, rfl⟩ ?_
      · rintro g log c g' ⟨hg, hsame⟩ hstep hcalm
        cases c with
        | stop => exact hcalm.elim
        | network a =>
          refine ⟨hg.network hstep hcalm, ?_⟩
          show (g.recordNetwork log a).admitted = _
          rw [Gateway.admitted_recordNetwork, hg.admits_eq_nil, List.append_nil, hsame]
        | matching popped =>
          refine ⟨hg.matching hstep, ?_⟩
          show (g.recordMatching log).admitted = _
          rw [← hsame]
          unfold Gateway.recordMatching
          split <;> rfl
      · intro m hm
        obtain ⟨j, -, rfl⟩ := List.mem_map.mp hm
        exact hcalm j
    obtain ⟨hg, hadmitted⟩ := hlog
    have htally := Tally.of_trace (h.trans (r.trace i))
    have hwork : (r.state i).work = 0 := hsettled
    simp only [Gateway.work, Nat.add_eq_zero_iff, Nat.mul_eq_zero, List.length_eq_zero_iff,
      OfNat.ofNat_ne_zero, false_or] at hwork
    obtain ⟨⟨⟨⟨hingress, hbatch⟩, hpending⟩, hresponses⟩, hdelivering⟩ := hwork
    have hpushing : pushing (r.state i).network = [] := pushing_of_quiet hg.quiet
    have hexecuted := htally.commands
    rw [hbatch, hingress, hpushing, List.append_nil, List.append_nil, List.append_nil,
      hadmitted] at hexecuted
    have hhandled := htally.responses
    rw [← hexecuted, hdelivering, hresponses, hpending, List.append_nil, List.append_nil,
      List.append_nil] at hhandled
    refine ⟨hadmitted, hexecuted.symm, hhandled.symm, fun hnd fd hfd => ?_⟩
    rw [answersTo, htally.delivered hnd fd hfd, payloadsTo, hhandled]

/-- A client sends a command and falls silent; nothing is executed yet. -/
def fallsSilent : List Choice :=
  clientSends "FLUSH\n" ++ nextLine ++ pushLine ++ [.network .none, .network (.popped 0)]

theorem fallsSilent_plays : (play Gateway.step (Gateway.start 1 (.ctor 1) 3) fallsSilent).isSome := by
  decide

theorem fair_run_serves_fallsSilent :
    ∃ r : Endless (Gateway.step (n := (roundUpPowerOfTwo 1).toNat)), r.Fair Choice.worker ∧
      r.state 0 = (play Gateway.step (Gateway.start 1 (.ctor 1) 3) fallsSilent).get
        fallsSilent_plays ∧
      ∃ i, ((moves Gateway.step (.start 1 (.ctor 1) 3) fallsSilent ++ r.upTo i).foldl
        Log.record {}).handled.map (·.payload) = ["INFO BOOK_FLUSHED\n".toList] := by
  obtain ⟨⟨r, hstart, hcalm, hfair⟩, hall⟩ := fair_run_serves 1 (by decide) (.ctor 1) 3
    (.of_play (Option.some_get fallsSilent_plays).symm) (by decide) rfl
  obtain ⟨i, -, -, hhandled, -⟩ := hall r hstart hcalm hfair
  refine ⟨r, hfair, hstart, i, ?_⟩
  rw [hhandled]
  decide

end Titan
