import Titan.Gateway.Delivery
import Titan.Gateway.Deadlock
import Titan.Gateway.Tasks

/-! What becomes of the commands and of the threads once `stop` was called.

    The matching thread leaves when it finds the flag down and the ingress queue empty, while the
    network thread may still be in its last pass of `poll_events`. The network thread in turn waits in
    the join and drains no responses meanwhile. -/

namespace Titan
open Schemes

deriving instance DecidableEq for Matching.Thread

namespace Task

/-- A task that may still lead to the push of a command in the same pass of `poll_events`. -/
def feeds : Task → Bool
  | .epollWait | .event _ | .clientRead _ | .readChunks _ | .lines _ | .processLine _ _
  | .pushIngress _ => true
  | _ => false

def joins : Task → Bool
  | .join => true
  | _ => false

end Task

namespace Gateway
variable {n : ℕ} {g g' : Gateway n} {a : Answer} {t : Task} {new : List Task} {clients : Clients}

/-- Only a new pass of the loop makes tasks that feed out of one that does not. -/
theorem Does.feeds (h : Does g a t new clients) (hrun : g.running = false)
    (ht : t.feeds = false) : ∀ x ∈ new, x.feeds = false := by
  cases h with
  | enter htrue =>
    rw [hrun] at htrue
    cases htrue
  | drain batch =>
    intro x hx
    obtain ⟨resp, -, rfl⟩ := List.mem_map.mp hx
    rfl
  | wait | listening | hungUp | ready | readUnknown | read | chunk _ | ended | readFailed | readAll
  | line _ _ | noLine _ _ | skip | reject _ | command | retry _ | push => cases ht
  | _ => simp [Task.feeds]

/-- The join is only put in front. -/
theorem Does.joins (h : Does g a t new clients) : ∀ x ∈ new.tail, x.joins = false := by
  cases h with
  | drain batch =>
    intro x hx
    obtain ⟨resp, -, rfl⟩ := List.mem_map.mp (List.mem_of_mem_tail hx)
    rfl
  | wait events =>
    intro x hx
    obtain ⟨e, -, rfl⟩ := List.mem_map.mp (List.mem_of_mem_tail hx)
    rfl
  | ready => split_ifs <;> simp [Task.joins]
  | _ => simp [Task.joins]

/-- How the matching thread gets to its exit. -/
theorem matchingStep_exit {popped : ℕ} (h : matchingStep popped g = some g') :
    (g'.matching = .testEmpty → g.running = false) ∧
    (g'.matching = .exited → g.matching = .testEmpty ∧ g.ingress.items = [] ∧
      g'.ingress = g.ingress) ∧
    g'.network = g.network ∧ g'.running = g.running := by
  unfold matchingStep at h
  split at h
  case h_1 hm =>
    cases h
    refine ⟨fun he => ?_, fun he => ?_, rfl, rfl⟩
    · by_contra hrun
      rw [Bool.not_eq_false] at hrun
      rw [hrun] at he
      cases he
    · dsimp only at he
      split_ifs at he
  case h_2 hm =>
    cases h
    refine ⟨fun he => ?_, fun he => ?_, rfl, rfl⟩
    · dsimp only at he
      split_ifs at he
    · dsimp only at he
      split_ifs at he with hempty
      exact ⟨hm, hempty, rfl⟩
  case h_3 hm =>
    dsimp only at h
    split_ifs at h <;> cases h <;> exact ⟨nofun, nofun, rfl, rfl⟩
  case h_4 hm =>
    cases h
    exact ⟨nofun, nofun, rfl, rfl⟩
  case h_5 msg batch hm =>
    dsimp only at h
    split_ifs at h <;> cases h <;> exact ⟨nofun, nofun, rfl, rfl⟩
  case h_6 resp batch hm =>
    cases hpush : g.responses.push resp with
    | none =>
      rw [hpush] at h
      cases h
      rw [hm]
      exact ⟨nofun, nofun, rfl, rfl⟩
    | some responses =>
      rw [hpush] at h
      cases h
      exact ⟨nofun, nofun, rfl, rfl⟩
  case h_7 => cases h

/-! ### The exit of the matching thread -/

/-- The matching thread quits only when the network thread is done with its pass: when it finds the
    ingress queue empty at its exit, nothing that the network thread has still to do feeds it. -/
def QuitsIdle (g : Gateway n) : Choice → Prop
  | .matching _ => g.matching = .testEmpty → g.ingress.items = [] →
      ∀ t ∈ g.network, t.feeds = false
  | .stop | .network _ => True

instance (g : Gateway n) : ∀ c, Decidable (g.QuitsIdle c)
  | .matching _ => inferInstanceAs (Decidable (_ → _ → _))
  | .stop | .network _ => inferInstanceAs (Decidable True)

end Gateway

/-- Where the matching thread has quit, nothing comes after it. -/
structure Quiet {n : ℕ} (g : Gateway n) : Prop where
  stopped : g.matching = .testEmpty ∨ g.matching = .exited → g.running = false
  empty : g.matching = .exited → g.ingress.items = []
  idle : g.matching = .exited → ∀ t ∈ g.network, t.feeds = false

namespace Quiet
variable {n : ℕ} {g g' : Gateway n}

theorem network (h : Quiet g) {a : Answer} (hstep : Gateway.networkStep a g = some g') :
    Quiet g' := by
  obtain ⟨⟨t, new, rest, hnet, hnet', hdoes⟩, hrun, hmatching, -⟩ :=
    Gateway.networkStep_does hstep
  have hingress : g.matching = .exited → g'.ingress = g.ingress := by
    intro hexited
    have hidle := h.idle hexited
    rw [hnet] at hidle
    have hmove : g.NetworkMove {} g' (g.recordNetwork {} a) := Gateway.networkStep_move hstep
    generalize g.recordNetwork {} a = log' at hmove
    cases hmove with
    | pushed hpushes _ =>
      rw [hnet] at hpushes
      cases hpushes
      have hfeeds : true = false := hidle _ (List.mem_cons_self ..)
      cases hfeeds
    | _ => rfl
  refine ⟨?_, ?_, ?_⟩
  · rw [hrun, hmatching]
    exact h.stopped
  · intro hexited
    rw [hmatching] at hexited
    rw [hingress hexited]
    exact h.empty hexited
  · intro hexited x hx
    rw [hmatching] at hexited
    have hidle := h.idle hexited
    rw [hnet] at hidle
    rw [hnet'] at hx
    rcases List.mem_append.mp hx with hx | hx
    · exact hdoes.feeds (h.stopped (.inr hexited)) (hidle t (List.mem_cons_self ..)) x hx
    · exact hidle x (List.mem_cons_of_mem t hx)

theorem matching (h : Quiet g) {popped : ℕ} (hstep : Gateway.matchingStep popped g = some g')
    (hquits : g.QuitsIdle (.matching popped)) : Quiet g' := by
  obtain ⟨htest, hexit, hnet, hrun⟩ := Gateway.matchingStep_exit hstep
  refine ⟨?_, ?_, ?_⟩
  · rw [hrun]
    rintro (he | he)
    · exact htest he
    · exact h.stopped (.inl (hexit he).1)
  · intro he
    obtain ⟨-, hempty, hingress⟩ := hexit he
    rw [hingress]
    exact hempty
  · intro he
    obtain ⟨hm, hempty, -⟩ := hexit he
    rw [hnet]
    exact hquits hm hempty

theorem move (h : Quiet g) {a : Choice} (hstep : Gateway.step a g = some g')
    (hquits : g.QuitsIdle a) : Quiet g' := by
  cases a with
  | stop =>
    cases hstep
    exact ⟨fun _ => rfl, h.empty, h.idle⟩
  | network a => exact h.network hstep
  | matching popped => exact h.matching hstep hquits

end Quiet

/-- A client sends one command, and the server is stopped. -/
def stopAfterCommand : List Choice :=
  clientSends "FLUSH\n" ++ nextLine ++ pushLine ++
    [.network .none, .network (.popped 0), .stop, .matching 0, .matching 0, .matching 1, .matching 0,
      .matching 0, .matching 0, .matching 0, .matching 0, .network .none, .network .none]

theorem stopAfterCommand_plays : (play Gateway.step (Gateway.start 1 (.ctor 1) 3)
    stopAfterCommand).isSome := by
  decide

namespace Gateway
variable {n : ℕ} {g g' : Gateway n}

/-- The network thread is at the join. -/
def waits (g : Gateway n) : Bool :=
  match g.network with
  | .join :: _ => true
  | _ => false

/-- All that the matching thread can still push fits into the response queue. -/
def Fits (g : Gateway n) : Prop :=
  g.matching = .exited ∨ g.responses.items.length + g.owed + g.ingress.items.length ≤ n

instance (g : Gateway n) : Decidable g.Fits := inferInstanceAs (Decidable (_ ∨ _))

/-- The network thread goes to the join only when the responses fit. -/
def JoinsWithRoom (g : Gateway n) : Choice → Prop
  | .network _ =>
    match g.network with
    | .whileRunning :: _ => g.running = false → g.Fits
    | _ => True
  | .stop | .matching _ => True

instance (g : Gateway n) : ∀ c, Decidable (g.JoinsWithRoom c)
  | .network _ => by
    rw [JoinsWithRoom]
    split <;> infer_instance
  | .stop | .matching _ => inferInstanceAs (Decidable True)

end Gateway

namespace Gateway
variable {n : ℕ} {g g' : Gateway n} {a : Answer} {t : Task} {new : List Task} {clients : Clients}

/-- Nothing but the end of the loop leads to the join. -/
theorem Does.leaves (h : Does g a t new clients) {x : Task} {xs : List Task} (hnew : new = x :: xs)
    (hx : x.joins) : t = .whileRunning ∧ g.running = false := by
  cases h with
  | leave hrun => exact ⟨rfl, hrun⟩
  | drain batch =>
    have hmem : x ∈ batch.map Task.deliver := by
      rw [hnew]
      exact List.mem_cons_self ..
    obtain ⟨resp, -, rfl⟩ := List.mem_map.mp hmem
    cases hx
  | wait events =>
    have hmem : x ∈ events.map Task.event := by
      rw [hnew]
      exact List.mem_cons_self ..
    obtain ⟨e, -, rfl⟩ := List.mem_map.mp hmem
    cases hx
  | @ready e =>
    have hmem : x ∈ (if e.readable then [Task.clientRead e.fd] else []) ++
        (if e.writable then [Task.clientWrite e.fd] else []) := by
      rw [hnew]
      exact List.mem_cons_self ..
    split_ifs at hmem <;> simp at hmem
    · rcases hmem with rfl | rfl <;> cases hx
    · subst hmem
      cases hx
    · subst hmem
      cases hx
  | _ =>
    cases hnew
    try cases hx

theorem networkStep_leave {rest : List Task} (hnet : g.network = .whileRunning :: rest)
    (hrun : g.running = false) (h : networkStep a g = some g') :
    g' = { g with network := .join :: .drainResponses :: .cleanup :: rest } := by
  unfold networkStep at h
  rw [hnet] at h
  cases a with
  | none =>
    dsimp only at h
    rw [if_neg (Bool.eq_false_iff.mp hrun)] at h
    exact (Option.some.inj h).symm
  | _ => cases h

end Gateway

/-- While the network thread waits in the join, what is under way fits. -/
structure Draining {n : ℕ} (g : Gateway n) : Prop where
  once : ∀ t ∈ g.network.tail, t.joins = false
  fits : g.waits → g.Fits

namespace Draining
variable {n : ℕ} {g g' : Gateway n}

theorem network (h : Draining g) {a : Answer} (hstep : Gateway.networkStep a g = some g')
    (hroom : g.JoinsWithRoom (.network a)) : Draining g' := by
  obtain ⟨⟨t, new, rest, hnet, hnet', hdoes⟩, -, -, -⟩ := Gateway.networkStep_does hstep
  have honce := h.once
  rw [hnet, List.tail_cons] at honce
  cases new with
  | nil =>
    rw [List.nil_append] at hnet'
    refine ⟨?_, fun hwaits => ?_⟩
    · rw [hnet']
      intro x hx
      exact honce x (List.mem_of_mem_tail hx)
    · -- no join comes up from behind
      rw [Gateway.waits, hnet'] at hwaits
      split at hwaits
      · have hfalse := honce _ (List.mem_cons_self ..)
        cases hfalse
      · cases hwaits
  | cons x xs =>
    refine ⟨?_, fun hwaits => ?_⟩
    · rw [hnet', List.cons_append, List.tail_cons]
      intro y hy
      rcases List.mem_append.mp hy with hy | hy
      · exact hdoes.joins y hy
      · exact honce y hy
    · rw [Gateway.waits, hnet', List.cons_append] at hwaits
      have hx : x.joins := by
        cases x with
        | join => rfl
        | _ => cases hwaits
      obtain ⟨rfl, hrun⟩ := hdoes.leaves rfl hx
      rw [Gateway.networkStep_leave hnet hrun hstep]
      rw [Gateway.JoinsWithRoom, hnet] at hroom
      exact hroom hrun

theorem matching (h : Draining g) {popped : ℕ} (hstep : Gateway.matchingStep popped g = some g') :
    Draining g' := by
  have hmove : g.MatchingMove {} g' (g.recordMatching {}) := Gateway.matchingStep_move hstep
  have hnet := hmove.network_eq
  refine ⟨by rw [hnet]; exact h.once, fun hwaits => ?_⟩
  rw [Gateway.waits, hnet] at hwaits
  rcases h.fits hwaits with hexited | hfits
  · rw [Gateway.matchingStep, hexited] at hstep
    cases hstep
  · exact .inr (hmove.load_le.1.trans hfits)

theorem move (h : Draining g) {a : Choice} (hstep : Gateway.step a g = some g')
    (hroom : g.JoinsWithRoom a) : Draining g' := by
  cases a with
  | stop =>
    cases hstep
    exact ⟨h.once, h.fits⟩
  | network a => exact h.network hstep hroom
  | matching popped => exact h.matching hstep

theorem not_retries (h : Draining g) (hwaits : g.waits) : ¬ g.retriesResponse := by
  intro hretries
  rw [Gateway.retriesResponse] at hretries
  split at hretries
  · rename_i resp batch hm
    have hfull := Fifo.push_eq_none_iff.mp (Option.isNone_iff_eq_none.mp hretries)
    rcases h.fits hwaits with hexited | hfits
    · rw [hm] at hexited
      cases hexited
    · rw [Gateway.owed, hm] at hfits
      simp only [Matching.Thread.batch, Matching.Thread.pending, List.length_singleton] at hfits
      omega
  · cases hretries

end Draining

/-- In every run in which the network thread goes to the join only when the response queue has room
    for all that the matching thread has still to answer, the matching thread never waits for room
    while the network thread waits in the join. -/
theorem join_never_wedged (queueCapacity : UInt64) (book : PoolOrderBook) (serverFd : Fd)
    {ms : List (Move (Gateway _) Choice)} {g : Gateway _}
    (h : Trace Gateway.step (.start queueCapacity book serverFd) ms g)
    (hroom : ∀ m ∈ ms, m.before.JoinsWithRoom m.choice) : ¬ (g.waits ∧ g.retriesResponse) := by
  have hstart : Draining (Gateway.start queueCapacity book serverFd) := ⟨nofun, nofun⟩
  have hdraining : Draining g :=
    h.invariant (fun _ _ _ hs hstep hP => hs.move hstep hP) hstart hroom
  rintro ⟨hwaits, hretries⟩
  exact hdraining.not_retries hwaits hretries

theorem join_never_wedged_stopAfterCommand :
    let g := (play Gateway.step (Gateway.start 1 (.ctor 1) 3) stopAfterCommand).get
      stopAfterCommand_plays
    ¬ (g.waits ∧ g.retriesResponse) :=
  join_never_wedged 1 (.ctor 1) 3 (.of_play (Option.some_get _).symm) (by decide)

/-- Two commands, none of whose answers is drained when the server is stopped. The first answer fills
    the response queue, and the second waits while the network thread joins. -/
def stopWithAnswers : List Choice :=
  clientSends "FLUSH\nFLUSH\n" ++ nextLine ++ pushLine ++ executeOne ++ nextLine ++ pushLine ++
    [.network .none, .network (.popped 0), .stop, .matching 0, .matching 0, .matching 0, .matching 0,
      .matching 1, .matching 0, .network .none]

theorem stopWithAnswers_wedges : ∃ h : (play Gateway.step (Gateway.start 1 (.ctor 1) 3)
      stopWithAnswers).isSome,
    let g := (play Gateway.step (Gateway.start 1 (.ctor 1) 3) stopWithAnswers).get h
    g.waits ∧ g.retriesResponse := by
  decide

/-- With queues of one slot, two unanswered commands wedge the shutdown. -/
theorem join_wedges : ¬ ∀ (queueCapacity : UInt64) (book : PoolOrderBook) (serverFd : Fd)
    (ms : List (Move (Gateway _) Choice)) (g : Gateway _),
    Trace Gateway.step (.start queueCapacity book serverFd) ms g →
      ¬ (g.waits ∧ g.retriesResponse) := by
  intro h
  obtain ⟨hplays, hwedged⟩ := stopWithAnswers_wedges
  exact h 1 (.ctor 1) 3 _ _ (.of_play (Option.some_get hplays).symm) hwedged

end Titan
