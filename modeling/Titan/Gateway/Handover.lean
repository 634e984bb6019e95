import Titan.Gateway.Custody
import Titan.Gateway.Shutdown

/-! The last responses of a run.

    After the join the network thread drains once more, and then drops the connections. The one batch
    that it drains is bounded, so that what is beyond it is dropped with them. -/

namespace Titan
open Schemes

namespace Task

/-- A task of the loop of `start`. -/
def serves : Task → Bool
  | .whileRunning | .join | .cleanup => false
  | _ => true

/-- A task of handing over responses. -/
def hands : Task → Bool
  | .deliver _ | .flush _ | .closeConnection _ => true
  | _ => false

end Task

namespace Gateway
variable {n : ℕ} {g g' : Gateway n} {a : Answer} {t : Task} {new rest : List Task}
  {clients : Clients}

theorem Does.serves (h : Does g a t new clients) (ht : t.serves) : ∀ x ∈ new, x.serves := by
  cases h with
  | enter | leave | join | cleanUp => cases ht
  | drain batch =>
    intro x hx
    obtain ⟨resp, -, rfl⟩ := List.mem_map.mp hx
    rfl
  | wait events =>
    intro x hx
    obtain ⟨e, -, rfl⟩ := List.mem_map.mp hx
    rfl
  | ready => split_ifs <;> simp [Task.serves]
  | _ => simp [Task.serves]

/-- Handing over opens no connection. -/
theorem Does.hands (h : Does g a t new clients) (ht : t.hands) : (∀ x ∈ new, x.hands) ∧
    ∀ fd, clients.find? fd ≠ none → g.clients.find? fd ≠ none := by
  cases h with
  | drop | flushed | writeBlocked | writeFailed => exact ⟨by simp [Task.hands], fun _ h => h⟩
  | deliver hfind => exact ⟨by simp [Task.hands], setClient_keeps hfind rfl⟩
  | sent hfind => exact ⟨by simp [Task.hands], setClient_keeps hfind rfl⟩
  | @close fd =>
    refine ⟨nofun, fun fd' hopen => ?_⟩
    by_cases he : fd' = fd
    · rw [he, Clients.find?_erase_self] at hopen
      exact absurd rfl hopen
    · rwa [Clients.find?_erase_of_ne he] at hopen
  | _ => cases ht

/-- A drain takes a batch, and behind the join all that the queue has up to the bound. -/
theorem networkStep_drain (hnet : g.network = .drainResponses :: rest)
    (h : networkStep a g = some g') : ∃ count,
      (joined rest → count = min batchSize g.responses.items.length) ∧ g' = { g with
        responses := (g.responses.popBatch count).2,
        network := (g.responses.popBatch count).1.map .deliver ++ rest } := by
  unfold networkStep at h
  rw [hnet] at h
  cases a with
  | popped count =>
    dsimp only at h
    split_ifs at h with hcount
    exact ⟨count, hcount.2.2, (Option.some.inj h).symm⟩
  | _ => cases h

/-- Only a drain takes responses from the queue. -/
theorem networkStep_responses (hnet : g.network = t :: rest) (ht : t.hands)
    (h : networkStep a g = some g') : g'.responses = g.responses := by
  have hmove : g.NetworkMove {} g' (g.recordNetwork {} a) := networkStep_move h
  generalize g.recordNetwork {} a = log' at hmove
  cases hmove with
  | drained _ hdrains =>
    rw [hnet] at hdrains
    cases hdrains
    cases ht
  | _ => rfl

/-- Of the responses that the last drain leaves in the queue none is for an open connection. -/
def LeavesNone (g : Gateway n) : Choice → Prop
  | .network _ =>
    match g.network with
    | [.drainResponses, .cleanup] =>
      ∀ resp ∈ g.responses.items.drop batchSize, g.clients.find? resp.clientFd = none
    | _ => True
  | .stop | .matching _ => True

/-- The network thread is about to drain for the last time. -/
def drainsLast : List Task → Bool
  | [.drainResponses, .cleanup] => true
  | _ => false

theorem leavesNone_iff (g : Gateway n) (a : Answer) : (drainsLast g.network = true →
    ∀ resp ∈ g.responses.items.drop batchSize, g.clients.find? resp.clientFd = none) ↔
      g.LeavesNone (.network a) := by
  rw [LeavesNone]
  split
  · rename_i hnet
    rw [hnet]
    exact forall_prop_of_true rfl
  · rename_i hother
    refine iff_of_true (fun hlast => ?_) trivial
    rw [drainsLast] at hlast
    · cases hlast
    · exact hother

instance (g : Gateway n) : ∀ c, Decidable (g.LeavesNone c)
  | .network a => decidable_of_iff _ (g.leavesNone_iff a)
  | .stop | .matching _ => inferInstanceAs (Decidable True)

/-- How far the network thread is with `start`. -/
inductive Stage (g : Gateway n) : Prop
  | serving {ts : List Task} : g.network = ts ++ [.whileRunning] → (∀ t ∈ ts, t.serves) → Stage g
  | joining : g.network = [.join, .drainResponses, .cleanup] → Stage g
  | draining : g.network = [.drainResponses, .cleanup] → g.matching = .exited → Stage g
  | handing {ts : List Task} : g.network = ts ++ [.cleanup] → (∀ t ∈ ts, t.hands) →
      g.matching = .exited →
      (∀ resp ∈ g.responses.items, g.clients.find? resp.clientFd = none) → Stage g
  | done : g.network = [] → Stage g

namespace Stage

theorem network (h : Stage g) (hstep : networkStep a g = some g')
    (hleaves : g.LeavesNone (.network a)) : Stage g' := by
  obtain ⟨⟨t, new, rest, hnet, hnet', hdoes⟩, -, hmatching, -⟩ := networkStep_does hstep
  cases h with
  | @serving ts htasks hserves =>
    rw [hnet] at htasks
    cases ts with
    | nil =>
      cases htasks
      generalize g'.clients = clients at hdoes
      cases hdoes with
      | enter =>
        have hloop : g'.network =
            [.drainResponses, .epollWait, .drainResponses] ++ [.whileRunning] := hnet'
        exact .serving hloop (by decide)
      | leave => exact .joining hnet'
    | cons u us =>
      rw [List.cons_append] at htasks
      obtain ⟨rfl, rfl⟩ := List.cons.inj htasks
      obtain ⟨hu, hus⟩ := List.forall_mem_cons.mp hserves
      rw [← List.append_assoc] at hnet'
      refine .serving hnet' fun x hx => ?_
      rcases List.mem_append.mp hx with hx | hx
      · exact hdoes.serves hu x hx
      · exact hus x hx
  | joining htasks =>
    rw [hnet] at htasks
    cases htasks
    generalize g'.clients = clients at hdoes
    cases hdoes with
    | join hexited => exact .draining hnet' (hmatching.trans hexited)
  | draining htasks hexited =>
    rw [LeavesNone, htasks] at hleaves
    obtain ⟨count, hcount, rfl⟩ := networkStep_drain htasks hstep
    refine .handing rfl (fun x hx => ?_) hexited fun resp hresp => ?_
    · obtain ⟨resp, -, rfl⟩ := List.mem_map.mp hx
      rfl
    · refine hleaves resp ?_
      have hdrop : resp ∈ g.responses.items.drop count := hresp
      rw [hcount rfl] at hdrop
      rcases Nat.le_total batchSize g.responses.items.length with hle | hle
      · rwa [min_eq_left hle] at hdrop
      · rw [min_eq_right hle, List.drop_length] at hdrop
        cases hdrop
  | @handing ts htasks hhands hexited hclosed =>
    rw [hnet] at htasks
    cases ts with
    | nil =>
      cases htasks
      generalize g'.clients = clients at hdoes
      cases hdoes with
      | cleanUp => exact .done hnet'
    | cons u us =>
      rw [List.cons_append] at htasks
      obtain ⟨rfl, rfl⟩ := List.cons.inj htasks
      obtain ⟨hu, hus⟩ := List.forall_mem_cons.mp hhands
      obtain ⟨hnew, hopen⟩ := hdoes.hands hu
      rw [← List.append_assoc] at hnet'
      refine .handing hnet' (fun x hx => ?_) (hmatching.trans hexited) fun resp hresp => ?_
      · rcases List.mem_append.mp hx with hx | hx
        · exact hnew x hx
        · exact hus x hx
      · rw [networkStep_responses hnet hu hstep] at hresp
        by_contra hne
        exact hopen _ hne (hclosed resp hresp)
  | done htasks =>
    rw [hnet] at htasks
    cases htasks

theorem matching (h : Stage g) {popped : ℕ} (hstep : matchingStep popped g = some g') :
    Stage g' := by
  have hmove : g.MatchingMove {} g' (g.recordMatching {}) := matchingStep_move hstep
  have hnet := hmove.network_eq
  have halive : g.matching ≠ .exited := by
    intro hexited
    rw [matchingStep, hexited] at hstep
    cases hstep
  cases h with
  | serving htasks hserves => exact .serving (hnet.trans htasks) hserves
  | joining htasks => exact .joining (hnet.trans htasks)
  | draining _ hexited | handing _ _ hexited _ => exact absurd hexited halive
  | done htasks => exact .done (hnet.trans htasks)

theorem move (h : Stage g) {a : Choice} (hstep : step a g = some g') (hleaves : g.LeavesNone a) :
    Stage g' := by
  cases a with
  | stop =>
    cases hstep
    cases h with
    | serving htasks hserves => exact .serving htasks hserves
    | joining htasks => exact .joining htasks
    | draining htasks hexited => exact .draining htasks hexited
    | handing htasks hhands hexited hclosed => exact .handing htasks hhands hexited hclosed
    | done htasks => exact .done htasks
  | network a => exact h.network hstep hleaves
  | matching popped => exact h.matching hstep

/-- At the clean-up the matching thread is gone, and no response waits for an open connection. -/
theorem at_cleanup (h : Stage g) (hnet : g.network = [.cleanup]) : g.matching = .exited ∧
    ∀ resp ∈ g.responses.items, g.clients.find? resp.clientFd = none := by
  cases h with
  | serving htasks _ =>
    rw [hnet, ← List.nil_append [Task.cleanup]] at htasks
    have hlast := (List.append_inj' htasks rfl).2
    cases hlast
  | joining htasks | draining htasks _ | done htasks =>
    rw [hnet] at htasks
    cases htasks
  | handing _ _ hexited hclosed => exact ⟨hexited, hclosed⟩

end Stage

end Gateway

/-- In every run in which the last drain leaves nothing in the queue for an open connection, each
    connection that is open at the clean-up was sent all answers to its commands, in order. -/
theorem responses_handed_over (queueCapacity : UInt64) (initial : PoolOrderBook) (serverFd : Fd)
    {ms : List (Move (Gateway _) Choice)} {g : Gateway _}
    (h : Trace Gateway.step (.start queueCapacity initial serverFd) ms g)
    (hleaves : ∀ m ∈ ms, m.before.LeavesNone m.choice) (hcleanup : g.network = [.cleanup]) :
    let c := ms.foldl Custody.record {}
    c.answers.map (·.2) = (runCommands initial c.log.executed).1 ∧
    ∀ fd, g.clients.find? fd ≠ none →
      (c.deliveries.filter (·.source = connection c.log.opened fd)).map
          (fun d => (d.target, d.response)) =
        c.answers.filter (·.1 = connection c.log.opened fd) := by
  intro c
  have hk : Entrusted initial g c := .of_trace h
  have hstage : g.Stage := by
    refine h.invariant (fun _ _ _ hs hstep hP => hs.move hstep hP) ?_ hleaves
    have hloop : (Gateway.start queueCapacity initial serverFd).network =
        [] ++ [.whileRunning] := rfl
    exact .serving hloop nofun
  obtain ⟨hexited, hclosed⟩ := hstage.at_cleanup hcleanup
  refine ⟨hk.answered, fun fd hopen => ?_⟩
  have hrest : (c.answers.drop c.log.handled.length).filter
      (·.1 = connection c.log.opened fd) = [] := by
    refine List.filter_eq_nil_iff.mpr fun p hp => ?_
    rw [decide_eq_true_eq]
    intro hown
    have hfd := hk.fd_of_owner hopen (List.mem_of_mem_drop hp) hown
    have hqueued : p.2 ∈ g.responses.items := by
      have hmem := hk.answer_waits hp
      rw [hcleanup, hexited] at hmem
      simpa [delivering, Matching.Thread.pending] using hmem
    exact hopen (hfd ▸ hclosed p.2 hqueued)
  rw [hk.complete fd hopen, ← List.append_nil (List.filter _ _), ← hrest, ← List.filter_append,
    List.take_append_drop]

theorem Gateway.joined_iff {ts : List Task} : joined ts ↔ ts = [.cleanup] := by
  constructor
  · intro h
    unfold joined at h
    split at h
    · rfl
    · cases h
  · rintro rfl
    rfl

/-- The one answer is drained after the join. -/
def handsOver : List Choice :=
  stopAfterCommand ++
    [.network (.popped 1), .network .none, .network (.wrote .wouldBlock)]

theorem handsOver_plays : (play Gateway.step (Gateway.start 1 (.ctor 1) 3) handsOver).isSome := by
  decide

theorem responses_handed_over_handsOver :
    let g := (play Gateway.step (Gateway.start 1 (.ctor 1) 3) handsOver).get handsOver_plays
    let c := (moves Gateway.step (Gateway.start 1 (.ctor 1) 3) handsOver).foldl Custody.record {}
    c.answers.map (·.2) = (runCommands (.ctor 1) c.log.executed).1 ∧
    ∀ fd, g.clients.find? fd ≠ none →
      (c.deliveries.filter (·.source = connection c.log.opened fd)).map
          (fun d => (d.target, d.response)) =
        c.answers.filter (·.1 = connection c.log.opened fd) :=
  responses_handed_over 1 (.ctor 1) 3 (.of_play (Option.some_get _).symm) (by decide)
    (Gateway.joined_iff.mp (by decide))

/-- `count` commands in one burst, all of which are executed after the server is stopped. -/
def stopWithBacklog (count : ℕ) : List Choice :=
  sends (List.replicate count ['F', 'L', 'U', 'S', 'H', '\n']).flatten ++
    (List.replicate count (nextLine ++ pushLine)).flatten ++
    [.network .none, .network (.popped 0), .stop, .network .none, .matching 0, .matching 0,
      .matching 64] ++
    (List.replicate 64 [.matching 0, .matching 0]).flatten ++
    [.matching 0, .matching 0, .matching 0, .matching 1, .matching 0, .matching 0, .matching 0,
      .matching 0, .matching 0, .network .none, .network (.popped 64)] ++
    (List.replicate 64 [.network .none, .network (.wrote .wouldBlock)]).flatten

set_option maxRecDepth 100000 in
theorem stopWithBacklog_leaves :
    ((play Gateway.step (Gateway.start 128 (.ctor 1) 3) (stopWithBacklog 65)).any fun g =>
      Gateway.joined g.network ∧ g.clients.find? 5 ≠ none) ∧
    (fun c : Custody => (c.deliveries.filter (·.source = connection c.log.opened 5)).length ≠
      (c.answers.filter (·.1 = connection c.log.opened 5)).length)
      ((moves Gateway.step (Gateway.start 128 (.ctor 1) 3) (stopWithBacklog 65)).foldl
        Custody.record {}) := by
  decide +kernel

/-- Beyond the first 64, the responses that wait for the join are dropped. -/
theorem responses_left_behind : ¬ ∀ (queueCapacity : UInt64) (initial : PoolOrderBook)
    (serverFd : Fd) (ms : List (Move (Gateway _) Choice)) (g : Gateway _),
    Trace Gateway.step (.start queueCapacity initial serverFd) ms g → g.network = [.cleanup] →
      ∀ fd, g.clients.find? fd ≠ none →
        ((ms.foldl Custody.record {}).deliveries.filter
            (·.source = connection (ms.foldl Custody.record {}).log.opened fd)).map
            (fun d => (d.target, d.response)) =
          (ms.foldl Custody.record {}).answers.filter
            (·.1 = connection (ms.foldl Custody.record {}).log.opened fd) := by
  intro h
  obtain ⟨hplays, hlengths⟩ := stopWithBacklog_leaves
  obtain ⟨g, hg, hend⟩ := (Option.any_eq_true _ _).mp hplays
  obtain ⟨hjoined, hopen⟩ := of_decide_eq_true hend
  have hrun := h 128 (.ctor 1) 3 _ _ (.of_play hg) (Gateway.joined_iff.mp hjoined) 5 hopen
  have hsame := congrArg List.length hrun
  rw [List.length_map] at hsame
  exact hlengths hsame

end Titan
