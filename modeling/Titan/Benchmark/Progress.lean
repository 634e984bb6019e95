import Titan.Benchmark.Accounting

/-! The closed loop comes to an end, with everything done.

    Where a thread does not wait, it has a step that brings the run nearer to its end; the accounts
    say that the two threads never wait at once. -/

namespace Titan
open Schemes

namespace ClosedLoop
variable {n : ℕ} {p : Setup} {s s' : ClosedLoop n} {log : Log}

/-! ### No deadlock -/

namespace Tally

/-- With no message under way the ingest thread has what it needs, or a completion to drain. -/
theorem not_ingestBlocked (h : Tally p s log) (hwindow : 1 ≤ p.window) (hn : 0 < n)
    (hbatch : s.matching.batch = []) (hpending : s.matching.pending = [])
    (hempty : s.ingress.items = []) : ¬ s.ingestBlocked p := by
  rintro ⟨hnone, hwaits⟩
  have hload := h.load
  rw [hnone, hbatch, hpending, hempty] at hload
  have hidle : s.inFlight = 0 := UInt64.toNat_inj.mp hload
  cases hthread : s.ingest <;> rw [hthread] at hwaits <;> dsimp only at hwaits
  case waitForCredit act =>
    rw [hidle] at hwaits
    exact absurd (UInt64.le_trans hwindow hwaits) (by decide)
  case push act msg =>
    have hfull := Fifo.push_eq_none_iff.mp hwaits
    rw [hempty] at hfull
    exact hn.ne hfull
  case retry act =>
    rw [hempty] at hwaits
    exact hn.ne hwaits
  case drainRest =>
    rw [hidle] at hwaits
    exact absurd hwaits (by decide)

/-- A matching thread that waits for messages has none. -/
theorem exited_of_noMessage (h : Tally p s log) (hbatchSize : 1 ≤ p.batchSize)
    (hwindow : 1 ≤ p.window) (hn : 0 < n) (hbatch : s.matching.batch = [])
    (hpending : s.matching.pending = [])
    (hblocked : min p.batchSize.toNat s.ingress.items.length = 0 ∧
      ¬ (s.producerDone ∧ s.ingress.items = []))
    (hingest : s.ingestBlocked p ∨ s.ingest = .exited) : False := by
  have hpos : 1 ≤ p.batchSize.toNat := hbatchSize
  have hempty : s.ingress.items = [] := List.eq_nil_of_length_eq_zero (by omega)
  rcases hingest with hwaits | hexit
  · exact h.not_ingestBlocked hwindow hn hbatch hpending hempty hwaits
  · exact hblocked.2 ⟨h.done.mpr hexit, hempty⟩

/-- Threads of which neither can go on have both come to their end. -/
theorem finished (h : Tally p s log) (hbatchSize : 1 ≤ p.batchSize) (hwindow : 1 ≤ p.window)
    (hn : 0 < n) (hingest : s.ingestBlocked p ∨ s.ingest = .exited)
    (hmatching : s.matchingBlocked p ∨ s.matching = .exited) : s.Finished := by
  rcases hmatching with hblocked | hexited
  · exfalso
    rw [matchingBlocked] at hblocked
    cases hm : s.matching <;> rw [hm] at hblocked <;> dsimp only at hblocked
    case complete c batch =>
      -- the completions fill their queue, so the ingest thread has something to drain
      have hfull := Fifo.push_eq_none_iff.mp hblocked
      rcases hingest with ⟨hnone, -⟩ | hexit
      · rw [hnone] at hfull
        exact hn.ne hfull
      · have hstands := h.ingest
        have hload := h.load
        rw [hexit] at hstands
        rw [hstands.2, hfull] at hload
        have : (0 : UInt64).toNat = 0 := rfl
        omega
    all_goals
      exact h.exited_of_noMessage hbatchSize hwindow hn (by rw [hm]; rfl) (by rw [hm]; rfl)
        hblocked hingest
  · have hdone := h.matching
    rw [hexited] at hdone
    exact ⟨h.done.mp hdone.1, hexited⟩

end Tally

/-! ### Towards the end -/

/-- The work that is left: what a message costs until its completion is drained. -/
def work (p : Setup) (s : ClosedLoop n) : ℕ :=
  5 * (p.actions.length - s.i) + 4 * s.ingress.items.length + 3 * s.matching.batch.length +
    2 * s.matching.pending.length + s.completions.items.length

/-- How far the ingest thread is from its next piece of work; `room` says that its push succeeds. -/
def Ingest.rank (room : Bool) : Ingest → ℕ
  | .next => 8
  | .waitForCredit _ => 7
  | .push _ _ => 6
  | .retry _ => if room then 7 else 5
  | .drainRest => 5
  | .setDone => 4
  | .exited => 0

/-- How far the matching thread is from its next piece of work, or from its end if there is none. -/
def Matching.rank (atEnd : Bool) : Matching → ℕ
  | .testDone => if atEnd then 2 else 3
  | .testEmpty => if atEnd then 1 else 2
  | .popBatch => if atEnd then 3 else 1
  | .execute _ | .complete _ _ => 4
  | .exited => 0

def measure (p : Setup) (s : ClosedLoop n) : ℕ :=
  13 * s.work p + s.ingest.rank (s.ingress.items.length < n) +
    s.matching.rank (s.producerDone && s.ingress.items = [])

theorem Ingest.rank_le (room : Bool) (thread : Ingest) : thread.rank room ≤ 8 := by
  cases thread <;> cases room <;> simp [rank]

theorem Matching.rank_le (atEnd : Bool) (thread : Matching) : thread.rank atEnd ≤ 4 := by
  cases thread <;> cases atEnd <;> simp [rank]

/-- The end of the loop coming into sight moves the matching thread little. -/
theorem Matching.rank_le_add (atEnd atEnd' : Bool) (thread : Matching) :
    thread.rank atEnd ≤ thread.rank atEnd' + 2 := by
  cases thread <;> cases atEnd <;> cases atEnd' <;> simp [rank]

/-- Work that is done outweighs everything else. -/
theorem measure_lt_of_work (h : s'.work p < s.work p) : s'.measure p < s.measure p := by
  have hi := Ingest.rank_le (s'.ingress.items.length < n) s'.ingest
  have hm := Matching.rank_le (s'.producerDone && s'.ingress.items = []) s'.matching
  rw [measure, measure]
  omega

/-- A step brings the run nearer to its end. -/
def Goes (p : Setup) (s : ClosedLoop n) : Prop :=
  ∃ a s', step p a s = some s' ∧ s'.measure p < s.measure p

theorem Goes.turn (thread : Ingest) (hstep : ingestStep p 0 0 0 s = some { s with ingest := thread })
    (hrank : thread.rank (s.ingress.items.length < n) < s.ingest.rank (s.ingress.items.length < n)) :
    s.Goes p := by
  refine ⟨.ingest 0 0 0, _, hstep, ?_⟩
  show 13 * s.work p + thread.rank (s.ingress.items.length < n) +
    s.matching.rank (s.producerDone && s.ingress.items = []) < _
  rw [measure]
  omega

theorem Goes.turnMatching (thread : Matching)
    (hstep : matchingStep p 0 s = some { s with matching := thread })
    (hkeeps : thread.batch = s.matching.batch ∧ thread.pending = s.matching.pending)
    (hrank : thread.rank (s.producerDone && s.ingress.items = []) <
      s.matching.rank (s.producerDone && s.ingress.items = [])) : s.Goes p := by
  refine ⟨.matching 0, _, hstep, ?_⟩
  have hwork : ({ s with matching := thread } : ClosedLoop n).work p = s.work p := by
    rw [work, work, hkeeps.1, hkeeps.2]
  rw [measure, measure, hwork]
  dsimp only
  omega

/-- A drain that finds a completion gets work done. -/
theorem drain_goes (p : Setup) (h : s.completions.items ≠ []) : ∃ s',
    s.drainCompletions 1 0 = some s' ∧
      ∀ thread, ({ s' with ingest := thread } : ClosedLoop n).work p < s.work p := by
  have hpos := List.length_pos_iff.mpr h
  refine ⟨_, by rw [drainCompletions, if_pos ⟨by decide, hpos⟩], fun thread => ?_⟩
  have hdrop : (s.completions.popBatch 1).2.items.length = s.completions.items.length - 1 :=
    List.length_drop
  rw [work, work]
  dsimp only
  rw [hdrop]
  omega

/-- A drain that finds none changes nothing. -/
theorem drainCompletions_zero (s : ClosedLoop n) : s.drainCompletions 0 0 = some s := by
  rw [drainCompletions, if_pos ⟨by decide, Nat.zero_le _⟩]
  show some { s with latenciesNs := s.latenciesNs ++ [], inFlight := s.inFlight - 0 } = some s
  rw [List.append_nil, UInt64.sub_zero]

theorem Goes.drain (hstep : ingestStep p 1 0 0 s = s.drainCompletions 1 0)
    (h : s.completions.items ≠ []) : s.Goes p := by
  obtain ⟨s', hdrain, hwork⟩ := drain_goes p h
  refine ⟨.ingest 1 0 0, s', hstep.trans hdrain, ?_⟩
  rw [← (drainCompletions_frame hdrain).2]
  exact measure_lt_of_work (hwork _)

/-- An ingest thread that does not wait can go on. -/
theorem Tally.ingest_goes (h : Tally p s log) (hrunning : s.ingest ≠ .exited)
    (hfree : ¬ s.ingestBlocked p) : s.Goes p := by
  have hstands := h.ingest
  rw [ingestBlocked] at hfree
  cases hthread : s.ingest <;> rw [hthread] at hstands hfree <;> dsimp only at hfree
  case exited => exact absurd hthread hrunning
  case next =>
    cases hact : p.actions[s.i]? with
    | some act =>
      refine .turn (.waitForCredit act) (by rw [ingestStep, hthread]; simp only [hact]) ?_
      rw [hthread]
      simp [Ingest.rank]
    | none =>
      refine .turn .drainRest (by rw [ingestStep, hthread]; simp only [hact]) ?_
      rw [hthread]
      simp [Ingest.rank]
  case waitForCredit act =>
    by_cases hfull : p.window ≤ s.inFlight
    · refine .drain ?_ fun hnil => hfree ⟨hnil, hfull⟩
      rw [ingestStep, hthread]
      exact if_pos hfull
    · refine .turn (.push act (makeMessage s.i act 0)) ?_ ?_
      · rw [ingestStep, hthread]
        exact if_neg hfull
      · rw [hthread]
        simp [Ingest.rank]
  case push act msg =>
    obtain ⟨hi, -⟩ := List.getElem?_eq_some_iff.mp hstands.1
    cases hpush : s.ingress.push msg with
    | some ingress =>
      refine ⟨.ingest 0 0 0, { s with
        ingress := ingress, inFlight := s.inFlight + 1, i := s.i + 1, ingest := .next }, ?_,
        measure_lt_of_work ?_⟩
      · rw [step, ingestStep, hthread]
        simp only [hpush]
      · rw [work, work, (Fifo.push_eq_some_iff.mp hpush).2, List.length_append,
          List.length_singleton]
        dsimp only
        omega
    | none =>
      have hfull := Fifo.push_eq_none_iff.mp hpush
      refine .turn (.retry act) (by rw [ingestStep, hthread]; simp only [hpush]) ?_
      rw [hthread]
      simp [Ingest.rank, hfull]
  case retry act =>
    by_cases hnil : s.completions.items = []
    · have hroom : s.ingress.items.length < n := by
        have := s.ingress.bound
        have : s.ingress.items.length ≠ n := fun hfull => hfree ⟨hnil, hfull⟩
        omega
      refine .turn (.push act (makeMessage s.i act 0)) ?_ ?_
      · rw [ingestStep, hthread]
        dsimp only
        rw [drainCompletions_zero]
        rfl
      · rw [hthread]
        simp [Ingest.rank, hroom]
    · obtain ⟨s', hdrain, hwork⟩ := drain_goes p hnil
      refine ⟨.ingest 1 0 0, { s' with ingest := .push act (makeMessage s'.i act 0) }, ?_,
        measure_lt_of_work (hwork _)⟩
      rw [step, ingestStep, hthread]
      dsimp only
      rw [hdrain]
      rfl
  case drainRest =>
    by_cases hmore : 0 < s.inFlight
    · refine .drain ?_ fun hnil => hfree ⟨hnil, hmore⟩
      rw [ingestStep, hthread]
      exact if_pos hmore
    · refine .turn .setDone ?_ ?_
      · rw [ingestStep, hthread]
        exact if_neg hmore
      · rw [hthread]
        simp [Ingest.rank]
  case setDone =>
    refine ⟨.ingest 0 0 0, { s with producerDone := true, ingest := .exited }, ?_, ?_⟩
    · rw [step, ingestStep, hthread]
    · have hrank := Matching.rank_le_add (true && decide (s.ingress.items = []))
        (s.producerDone && s.ingress.items = []) s.matching
      rw [measure, measure, hthread]
      simp only [Ingest.rank]
      show 13 * s.work p + 0 + _ < _
      omega

/-- A matching thread that does not wait can go on. -/
theorem matching_goes (hrunning : s.matching ≠ .exited) (hfree : ¬ s.matchingBlocked p) :
    s.Goes p := by
  rw [matchingBlocked] at hfree
  cases hthread : s.matching <;> rw [hthread] at hfree <;> dsimp only at hfree
  case exited => exact absurd hthread hrunning
  case testDone =>
    cases hdone : s.producerDone with
    | true =>
      refine .turnMatching .testEmpty (by rw [matchingStep, hthread]; simp only [hdone]; rfl)
        (by rw [hthread]; exact ⟨rfl, rfl⟩) ?_
      rw [hthread, Matching.rank, Matching.rank]
      split_ifs <;> omega
    | false =>
      refine .turnMatching .popBatch (by rw [matchingStep, hthread]; simp only [hdone]; rfl)
        (by rw [hthread]; exact ⟨rfl, rfl⟩) ?_
      rw [hthread, hdone, Bool.false_and]
      decide
  case testEmpty =>
    by_cases hempty : s.ingress.items = []
    · refine .turnMatching .exited (by rw [matchingStep, hthread]; simp only [if_pos hempty])
        (by rw [hthread]; exact ⟨rfl, rfl⟩) ?_
      rw [hthread, Matching.rank, Matching.rank]
      split_ifs <;> omega
    · refine .turnMatching .popBatch (by rw [matchingStep, hthread]; simp only [if_neg hempty])
        (by rw [hthread]; exact ⟨rfl, rfl⟩) ?_
      rw [hthread, decide_eq_false hempty, Bool.and_false]
      decide
  case popBatch =>
    rcases Nat.eq_zero_or_pos (min p.batchSize.toNat s.ingress.items.length) with hzero | hpos
    · have hover : s.producerDone = true ∧ s.ingress.items = [] := by
        by_contra hmore
        exact hfree ⟨hzero, hmore⟩
      refine .turnMatching .testDone ?_ (by rw [hthread]; exact ⟨rfl, rfl⟩) ?_
      · rw [matchingStep, hthread]
        dsimp only
        rw [if_pos ⟨Nat.zero_le _, Nat.zero_le _⟩, if_pos rfl]
      · rw [hthread, hover.1, hover.2]
        decide
    · refine ⟨.matching 1, { s with
        ingress := (s.ingress.popBatch 1).2, matching := .execute (s.ingress.popBatch 1).1 }, ?_,
        measure_lt_of_work ?_⟩
      · rw [step, matchingStep, hthread]
        dsimp only
        rw [if_pos (by omega), if_neg one_ne_zero]
      · have htake : (s.ingress.popBatch 1).1.length = min 1 s.ingress.items.length :=
          List.length_take
        have hdrop : (s.ingress.popBatch 1).2.items.length = s.ingress.items.length - 1 :=
          List.length_drop
        simp only [work, hthread, Matching.batch, Matching.pending, htake, hdrop, List.length_nil]
        omega
  case execute batch =>
    cases batch with
    | nil =>
      refine .turnMatching .testDone (by rw [matchingStep, hthread])
        (by rw [hthread]; exact ⟨rfl, rfl⟩) ?_
      rw [hthread, Matching.rank, Matching.rank]
      split_ifs <;> omega
    | cons msg batch =>
      refine ⟨.matching 0, _, by rw [step, matchingStep, hthread], measure_lt_of_work ?_⟩
      simp only [work, hthread, Matching.batch, Matching.pending, List.length_cons,
        List.length_nil]
      omega
  case complete c batch =>
    cases hpush : s.completions.push c with
    | none => exact absurd hpush hfree
    | some completions =>
      refine ⟨.matching 0, { s with completions := completions, matching := .execute batch }, ?_,
        measure_lt_of_work ?_⟩
      · rw [step, matchingStep, hthread]
        simp only [hpush]
      · simp only [work, hthread, (Fifo.push_eq_some_iff.mp hpush).2, Matching.batch,
          Matching.pending, List.length_append, List.length_singleton, List.length_nil]
        omega

/-- Some thread can go on, unless both have come to their end. -/
theorem Tally.goes (h : Tally p s log) (hbatchSize : 1 ≤ p.batchSize) (hwindow : 1 ≤ p.window)
    (hn : 0 < n) (hmore : ¬ s.Finished) : s.Goes p := by
  by_cases hingest : s.ingestBlocked p ∨ s.ingest = .exited
  · by_cases hmatching : s.matchingBlocked p ∨ s.matching = .exited
    · exact absurd (h.finished hbatchSize hwindow hn hingest hmatching) hmore
    · push Not at hmatching
      exact matching_goes hmatching.2 hmatching.1
  · push Not at hingest
    exact h.ingest_goes hingest.2 hingest.1

/-! ### The result -/

namespace Tally

/-- The messages that are not acknowledged are in flight. -/
theorem unacked (h : Tally p s log) : ∃ acked unacked, log.pushed = acked ++ unacked ∧
    log.drained = acked.map (·.completion) ∧ s.inFlight.toNat = unacked.length := by
  have hcredit := h.credit
  refine ⟨log.pushed.take log.drained.length, log.pushed.drop log.drained.length,
    (List.take_append_drop ..).symm, ?_, ?_⟩
  · have hle : log.drained.length ≤ log.executed.length := by
      have := congrArg List.length h.completed
      simp only [List.length_map, List.length_append] at this
      omega
    rw [h.commands, List.append_assoc, List.take_append_of_le_length hle, List.map_take,
      h.completed, List.append_assoc, List.take_left]
  · rw [List.length_drop]
    omega

theorem complete (h : Tally p s log) (hfinished : s.Finished) :
    log.executed.map (·.unstamped) = messages p.actions ∧ log.pushed = log.executed ∧
      log.drained = log.executed.map (·.completion) ∧ s.completions.items = [] ∧
      s.book = p.actions.foldl OrderAction.run (.ctor p.actions.length) := by
  obtain ⟨hingest, hmatching⟩ := hfinished
  have hstands := h.ingest
  rw [hingest] at hstands
  have hload := h.load
  rw [hstands.2] at hload
  have hzero : (0 : UInt64).toNat = 0 := rfl
  have hcompletions : s.completions.items = [] := List.eq_nil_of_length_eq_zero (by omega)
  have hempty : s.ingress.items = [] := List.eq_nil_of_length_eq_zero (by omega)
  have hpushed : log.pushed = log.executed := by
    rw [h.commands, hmatching, hempty, List.append_nil]
    exact List.append_nil _
  have hall : log.executed.map (·.unstamped) = messages p.actions := by
    rw [← hpushed, h.pushed, List.take_of_length_le hstands.1]
  refine ⟨hall, hpushed, ?_, hcompletions, ?_⟩
  · rw [h.completed, hmatching, hcompletions, List.append_nil]
    exact (List.append_nil _).symm
  · rw [h.book, runMessages_eq hall]

end Tally

theorem capacity_pos : 0 < (roundUpPowerOfTwo 65536).toNat := by
  have hval : (65536 : UInt64).toNat ≤ 2 ^ 63 := by decide
  obtain ⟨e, -, hpow⟩ := roundUpPowerOfTwo_pow hval
  rw [hpow]
  exact Nat.two_pow_pos e

/-- What holds in every state of a run, whatever the threads did and in whatever order. -/
structure Accounts (p : Setup) (s : ClosedLoop (roundUpPowerOfTwo 65536).toNat) (log : Log) :
    Prop where
  /-- What is in flight are the messages whose completions have not been drained. -/
  inFlight : ∃ acked unacked, log.pushed = acked ++ unacked ∧
    log.drained = acked.map (·.completion) ∧ s.inFlight.toNat = unacked.length
  window : s.inFlight ≤ p.window
  /-- No drain gives back more credit than was taken. -/
  noUnderflow : ∀ popped t1, (s.drainCompletions popped t1).isSome → popped ≤ s.inFlight.toNat
  /-- The threads never both wait, nor does one wait for the other when that has come to its end. -/
  noDeadlock : s.ingestBlocked p ∨ s.ingest = .exited → s.matchingBlocked p ∨ s.matching = .exited →
    s.Finished
  canFinish : ∃ ms t, Trace (step p) s ms t ∧ t.Finished
  /-- In the end every action has been executed once, in order, and all completions are drained. -/
  finished : s.Finished → log.executed.map (·.unstamped) = messages p.actions ∧
    log.pushed = log.executed ∧ log.drained = log.executed.map (·.completion) ∧
    s.completions.items = [] ∧ s.book = p.actions.foldl OrderAction.run (.ctor p.actions.length)

/-- In every run of the closed loop the accounts are right; batch size and window make no difference
    to what is done in the end. -/
theorem closed_loop_accounts (p : Setup) (hbatchSize : 1 ≤ p.batchSize) (hwindow : 1 ≤ p.window)
    {ms : List (Move (ClosedLoop _) Choice)} {s : ClosedLoop _}
    (h : Trace (step p) (start p) ms s) : Accounts p s (ms.foldl (Log.record p) {}) := by
  have ht := Tally.of_trace h
  refine ⟨ht.unacked, ht.window, ?_, ht.finished hbatchSize hwindow capacity_pos, ?_, ht.complete⟩
  · intro popped t1 hdrain
    have hload := ht.load
    obtain ⟨s', hs'⟩ := Option.isSome_iff_exists.mp hdrain
    rw [drainCompletions] at hs'
    split_ifs at hs' with hsize
    omega
  · refine Trace.exists_goal (I := fun s => ∃ log, Tally p s log) (measure p) ?_ ⟨_, ht⟩
    rintro s ⟨log, ht⟩ hmore
    obtain ⟨a, s', hstep, hlt⟩ := ht.goes hbatchSize hwindow capacity_pos hmore
    exact ⟨a, s', hstep, ⟨_, ht.move hstep⟩, hlt⟩

/-- An order and its cancel, one at a time. -/
def oneByOne : Setup where
  actions := [{ type := .newOrder, order := { orderId := 1, price := 100, initialQuantity := 5 } },
    { type := .cancelOrder, cancelId := 1 }]
  batchSize := 1
  window := 1

def oneByOneRun : List Choice :=
  [.ingest 0 0 0, .ingest 0 0 7, .ingest 0 0 0, .ingest 0 0 0, .ingest 0 8 0,
   .matching 0, .matching 1, .matching 0, .matching 0, .matching 0,
   .ingest 1 9 0, .ingest 0 0 9, .ingest 0 0 0, .ingest 0 0 0,
   .matching 0, .matching 1, .matching 0, .matching 0, .matching 0,
   .ingest 1 12 0, .ingest 0 0 0, .ingest 0 0 0, .matching 0, .matching 0]

theorem oneByOne_plays : (play (step oneByOne) (start oneByOne) oneByOneRun).isSome := by
  decide

theorem closed_loop_accounts_oneByOne :
    let s := (play (step oneByOne) (start oneByOne) oneByOneRun).get oneByOne_plays
    let ms := moves (step oneByOne) (start oneByOne) oneByOneRun
    s.Finished ∧ Accounts oneByOne s (ms.foldl (Log.record oneByOne) {}) := by
  intro s ms
  refine ⟨⟨rfl, rfl⟩, ?_⟩
  exact closed_loop_accounts oneByOne (by decide) (by decide) (.of_play (Option.some_get _).symm)

end ClosedLoop

end Titan
