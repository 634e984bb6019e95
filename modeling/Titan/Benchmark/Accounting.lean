import Titan.Benchmark.ClosedLoop

/-! The accounts of the closed loop.

    What is in flight is somewhere: in the ingress queue, in the batch of the matching thread, or
    among the completions. So a drain finds no more completions than there is credit to give back, and
    a thread that waits has the other one to wait for. -/

namespace Titan
open Schemes

/-- The effect of an action on the book. -/
def OrderAction.run (book : PoolOrderBook) (act : OrderAction) : PoolOrderBook :=
  match act.type with
  | .newOrder => (book.submitOrder act.order []).2.2
  | .cancelOrder => (book.cancelOrder act.cancelId).2

namespace IngressMessage

/-- A message but for its time stamp. -/
def unstamped (msg : IngressMessage) : IngressMessage := { msg with ingressTimestamp := 0 }

def completion (msg : IngressMessage) : Completion := { ingressTs := msg.ingressTimestamp }

end IngressMessage

namespace ClosedLoop

/-- The messages of actions, but for their time stamps. -/
def messages (actions : List OrderAction) : List IngressMessage :=
  actions.mapIdx fun i act => makeMessage i act 0

theorem messages_concat (actions : List OrderAction) (act : OrderAction) :
    messages (actions ++ [act]) = messages actions ++ [makeMessage actions.length act 0] :=
  List.mapIdx_concat

theorem trades_executeCommand (book : PoolOrderBook) (msg : IngressMessage) (trades : List Trade) :
    (executeCommand book msg trades).2 = [] := by
  rw [executeCommand.eq_def]
  split <;> rfl

theorem executeCommand_makeMessage (book : PoolOrderBook) (i : ℕ) (act : OrderAction)
    (ts : Timestamp) : (executeCommand book (makeMessage i act ts) []).1 = act.run book := by
  rw [executeCommand, makeMessage, OrderAction.run]
  cases act.type <;> rfl

/-- Messages executed one after the other. -/
def runMessages (book : PoolOrderBook) (msgs : List IngressMessage) : PoolOrderBook :=
  msgs.foldl (fun book msg => (executeCommand book msg []).1) book

theorem runMessages_concat (book : PoolOrderBook) (msgs : List IngressMessage)
    (msg : IngressMessage) : runMessages book (msgs ++ [msg]) =
      (executeCommand (runMessages book msgs) msg []).1 := by
  rw [runMessages, List.foldl_append]
  rfl

/-- The messages of actions do to the book what the actions do. -/
theorem runMessages_eq {book : PoolOrderBook} {msgs : List IngressMessage}
    {actions : List OrderAction} (h : msgs.map (·.unstamped) = messages actions) :
    runMessages book msgs = actions.foldl OrderAction.run book := by
  have hstamps : runMessages book (msgs.map (·.unstamped)) = runMessages book msgs := by
    rw [runMessages, List.foldl_map]
    rfl
  rw [← hstamps, h, messages, List.mapIdx_eq_zipIdx_map, runMessages, List.foldl_map]
  simp only [executeCommand_makeMessage]
  rw [← List.foldl_map (f := Prod.fst) (g := OrderAction.run), List.zipIdx_map_fst]

/-! ### What is under way -/

/-- The messages that the matching thread has popped and not yet executed. -/
def Matching.batch : Matching → List IngressMessage
  | .execute batch | .complete _ batch => batch
  | _ => []

/-- The completion that the matching thread is pushing. -/
def Matching.pending : Matching → List Completion
  | .complete c _ => [c]
  | _ => []

/-- What the ingest thread knows where it stands. -/
def Ingest.Stands (p : Setup) (i : ℕ) (inFlight : UInt64) : Ingest → Prop
  | .next => True
  | .waitForCredit act => p.actions[i]? = some act
  | .push act msg => p.actions[i]? = some act ∧ inFlight < p.window ∧ ∃ ts, msg = makeMessage i act ts
  | .retry act => p.actions[i]? = some act ∧ inFlight < p.window
  | .drainRest => p.actions.length ≤ i
  | .setDone | .exited => p.actions.length ≤ i ∧ inFlight = 0

/-- What the matching thread knows of the end of the loop. -/
def Matching.Stands (producerDone : Bool) (ingress : List IngressMessage) : Matching → Prop
  | .testEmpty => producerDone
  | .exited => producerDone ∧ ingress = []
  | _ => True

/-- Before the loop is over, what comes into the ingress queue makes no difference. -/
theorem Matching.Stands.before {producerDone : Bool} {ingress ingress' : List IngressMessage}
    {thread : Matching} (h : thread.Stands producerDone ingress) (hdone : ¬ producerDone = true) :
    thread.Stands producerDone ingress' := by
  cases thread with
  | testEmpty => exact h
  | exited => exact absurd h.1 hdone
  | _ => trivial

theorem Matching.Stands.done {producerDone : Bool} {ingress : List IngressMessage}
    {thread : Matching} (h : thread.Stands producerDone ingress) : thread.Stands true ingress := by
  cases thread with
  | testEmpty => rfl
  | exited => exact ⟨rfl, h.2⟩
  | _ => trivial

/-- A drain leaves the thread where it stands. -/
theorem drainCompletions_frame {n : ℕ} {s s' : ClosedLoop n} {popped : ℕ} {t1 : Timestamp}
    (hdrain : s.drainCompletions popped t1 = some s') :
    s'.i = s.i ∧ { s' with ingest := s.ingest } = s' := by
  rw [drainCompletions] at hdrain
  split_ifs at hdrain
  cases hdrain
  exact ⟨rfl, rfl⟩

/-- The log accounts for what the threads have. -/
structure Tally {n : ℕ} (p : Setup) (s : ClosedLoop n) (log : Log) : Prop where
  pushed : log.pushed.map (·.unstamped) = messages (p.actions.take s.i)
  commands : log.pushed = log.executed ++ s.matching.batch ++ s.ingress.items
  completed : log.executed.map (·.completion) =
    log.drained ++ s.completions.items ++ s.matching.pending
  book : s.book = runMessages (.ctor p.actions.length) log.executed
  trades : s.trades = []
  credit : s.inFlight.toNat + log.drained.length = log.pushed.length
  window : s.inFlight ≤ p.window
  ingest : s.ingest.Stands p s.i s.inFlight
  done : s.producerDone = true ↔ s.ingest = .exited
  matching : s.matching.Stands s.producerDone s.ingress.items

namespace Tally
variable {n : ℕ} {p : Setup} {s s' : ClosedLoop n} {log : Log}

theorem start (p : Setup) : Tally p (ClosedLoop.start p) {} where
  pushed := by
    show [] = messages (p.actions.take 0)
    rw [List.take_zero]
    rfl
  commands := rfl
  completed := rfl
  book := rfl
  trades := rfl
  credit := rfl
  window := UInt64.zero_le
  ingest := trivial
  done := ⟨fun h => (nomatch h), fun h => (nomatch h)⟩
  matching := trivial

/-- What is in flight is somewhere. -/
theorem load (h : Tally p s log) : s.inFlight.toNat = s.completions.items.length +
    s.matching.pending.length + s.matching.batch.length + s.ingress.items.length := by
  have hcredit := h.credit
  have hpushed := congrArg List.length h.commands
  have hcompleted := congrArg List.length h.completed
  simp only [List.length_append, List.length_map] at hpushed hcompleted
  omega

/-- There is credit to give back for all that can be drained. -/
theorem toNat_sub (h : Tally p s log) {popped : ℕ} (hle : popped ≤ s.completions.items.length) :
    (s.inFlight - UInt64.ofNat popped).toNat = s.inFlight.toNat - popped := by
  have hload := h.load
  have hlt := s.inFlight.toNat_lt
  rw [UInt64.toNat_sub, UInt64.toNat_ofNat_of_lt' (by show popped < 2 ^ 64; omega)]
  omega

theorem sub_le (h : Tally p s log) {popped : ℕ} (hle : popped ≤ s.completions.items.length) :
    s.inFlight - UInt64.ofNat popped ≤ s.inFlight := by
  rw [UInt64.le_iff_toNat_le, h.toNat_sub hle]
  exact Nat.sub_le ..

/-- A local step of the ingest thread. -/
theorem turns (h : Tally p s log) {thread : Ingest} (hthread : thread.Stands p s.i s.inFlight)
    (hne : thread ≠ .exited) (hrunning : s.ingest ≠ .exited) :
    Tally p { s with ingest := thread } log :=
  { h with
    ingest := hthread
    done := ⟨fun hdone => absurd (h.done.mp hdone) hrunning, fun hexit => absurd hexit hne⟩ }

/-- The ingest thread drains completions. -/
theorem drains (h : Tally p s log) {popped : ℕ} {t1 : Timestamp} {thread : Ingest}
    (hdrain : s.drainCompletions popped t1 = some s')
    (hthread : ∀ inFlight ≤ s.inFlight, thread.Stands p s.i inFlight) (hne : thread ≠ .exited)
    (hrunning : s.ingest ≠ .exited) : Tally p { s' with ingest := thread }
      { log with drained := log.drained ++ (s.completions.popBatch popped).1 } := by
  rw [drainCompletions] at hdrain
  split_ifs at hdrain with hsize
  cases hdrain
  have hle := hsize.2
  have hback := h.toNat_sub hle
  have hlength : (s.completions.popBatch popped).1.length = popped := by
    rw [Fifo.popBatch, List.length_take, Nat.min_eq_left hle]
  exact
    { h with
      completed := by
        show _ = log.drained ++ (s.completions.popBatch popped).1 ++
          (s.completions.popBatch popped).2.items ++ s.matching.pending
        rw [h.completed, List.append_assoc _ (s.completions.popBatch popped).1,
          Fifo.popBatch_append]
      credit := by
        have hcredit := h.credit
        have hload := h.load
        dsimp only
        rw [hback, List.length_append, hlength]
        omega
      window := UInt64.le_trans (h.sub_le hle) h.window
      ingest := hthread _ (h.sub_le hle)
      done := ⟨fun hdone => absurd (h.done.mp hdone) hrunning, fun hexit => absurd hexit hne⟩ }

/-- The ingest thread pushes a message. -/
theorem pushes (h : Tally p s log) {act : OrderAction} {msg : IngressMessage}
    {ingress : Fifo IngressMessage n} (hthread : s.ingest = .push act msg)
    (hpush : s.ingress.push msg = some ingress) :
    Tally p { s with ingress := ingress, inFlight := s.inFlight + 1, i := s.i + 1, ingest := .next }
      { log with pushed := log.pushed ++ [msg] } := by
  have hstands := h.ingest
  rw [hthread] at hstands
  obtain ⟨hact, hcredit, ts, rfl⟩ := hstands
  have hitems := (Fifo.push_eq_some_iff.mp hpush).2
  have hnext : (s.inFlight + 1).toNat = s.inFlight.toNat + 1 := by
    have hlt : s.inFlight.toNat < p.window.toNat := hcredit
    have := p.window.toNat_lt
    rw [UInt64.toNat_add, UInt64.toNat_one]
    omega
  obtain ⟨hi, -⟩ := List.getElem?_eq_some_iff.mp hact
  have hrunning : ¬ s.producerDone = true := fun hdone =>
    nomatch hthread.symm.trans (h.done.mp hdone)
  exact
    { h with
      pushed := by
        dsimp only
        rw [List.map_append, h.pushed, List.take_add_one, hact, Option.toList_some,
          messages_concat, List.length_take, Nat.min_eq_left hi.le]
        rfl
      commands := by
        dsimp only
        rw [h.commands, hitems, List.append_assoc _ s.ingress.items]
      credit := by
        have hcredit := h.credit
        dsimp only
        rw [hnext, List.length_append, List.length_singleton]
        omega
      window := by
        have hlt : s.inFlight.toNat < p.window.toNat := hcredit
        rw [UInt64.le_iff_toNat_le, hnext]
        omega
      ingest := trivial
      done := ⟨fun hdone => absurd hdone hrunning, fun hexit => nomatch hexit⟩
      matching := h.matching.before hrunning }

/-- A step of the ingest thread keeps the accounts. -/
theorem ingestMove (h : Tally p s log) {popped : ℕ} {t1 ts : Timestamp}
    (hstep : s.ingestStep p popped t1 ts = some s') : Tally p s' (s.recordIngest p log popped) := by
  have hstands := h.ingest
  have hrunning : s.ingest ≠ .exited := by
    intro hexit
    rw [ingestStep, hexit] at hstep
    cases hstep
  rw [ingestStep] at hstep
  rw [recordIngest, ClosedLoop.drains]
  cases hthread : s.ingest with
  | next =>
    rw [hthread] at hstep
    cases hact : p.actions[s.i]? with
    | some act =>
      simp only [hact] at hstep
      cases hstep
      exact h.turns hact nofun hrunning
    | none =>
      simp only [hact] at hstep
      cases hstep
      exact h.turns (List.getElem?_eq_none_iff.mp hact) nofun hrunning
  | waitForCredit act =>
    rw [hthread] at hstep hstands
    dsimp only at hstep ⊢
    split_ifs at hstep with hfull
    · rw [decide_eq_true hfull, if_pos rfl, ← (drainCompletions_frame hstep).2, hthread]
      exact h.drains hstep (fun _ _ => hstands) nofun hrunning
    · cases hstep
      rw [decide_eq_false hfull, if_neg nofun]
      exact h.turns ⟨hstands, UInt64.not_le.mp hfull, ts, rfl⟩ nofun hrunning
  | push act msg =>
    rw [hthread] at hstep hstands
    dsimp only at hstep ⊢
    cases hpush : s.ingress.push msg with
    | some ingress =>
      rw [hpush] at hstep
      cases hstep
      rw [if_neg (Option.some_ne_none _)]
      exact h.pushes hthread hpush
    | none =>
      rw [hpush] at hstep
      cases hstep
      rw [if_pos rfl]
      exact h.turns ⟨hstands.1, hstands.2.1⟩ nofun hrunning
  | retry act =>
    rw [hthread] at hstep hstands
    obtain ⟨s₁, hdrain, rfl⟩ := Option.map_eq_some_iff.mp hstep
    rw [if_pos rfl]
    have hthread' : ∀ inFlight ≤ s.inFlight,
        (Ingest.push act (makeMessage s₁.i act ts)).Stands p s.i inFlight := by
      intro inFlight hle
      rw [(drainCompletions_frame hdrain).1]
      exact ⟨hstands.1, UInt64.lt_of_le_of_lt hle hstands.2, ts, rfl⟩
    exact h.drains hdrain hthread' nofun hrunning
  | drainRest =>
    rw [hthread] at hstep hstands
    dsimp only at hstep ⊢
    split_ifs at hstep with hmore
    · rw [decide_eq_true hmore, if_pos rfl, ← (drainCompletions_frame hstep).2, hthread]
      exact h.drains hstep (fun _ _ => hstands) nofun hrunning
    · cases hstep
      rw [decide_eq_false hmore, if_neg nofun]
      exact h.turns ⟨hstands, UInt64.le_zero_iff.mp (UInt64.not_lt.mp hmore)⟩ nofun hrunning
  | setDone =>
    rw [hthread] at hstep hstands
    cases hstep
    exact { h with
      ingest := hstands
      done := ⟨fun _ => rfl, fun _ => rfl⟩
      matching := h.matching.done }
  | exited => exact absurd hthread hrunning

/-- A local step of the matching thread. -/
theorem turnsMatching (h : Tally p s log) {thread : Matching}
    (hkeeps : thread.batch = s.matching.batch ∧ thread.pending = s.matching.pending)
    (hthread : thread.Stands s.producerDone s.ingress.items) :
    Tally p { s with matching := thread } log :=
  { h with
    commands := by rw [h.commands, hkeeps.1]
    completed := by rw [h.completed, hkeeps.2]
    matching := hthread }

/-- A step of the matching thread keeps the accounts. -/
theorem matchingMove (h : Tally p s log) {popped : ℕ}
    (hstep : s.matchingStep p popped = some s') : Tally p s' (s.recordMatching log) := by
  have hstands := h.matching
  rw [matchingStep] at hstep
  rw [recordMatching]
  cases hthread : s.matching with
  | testDone =>
    rw [hthread] at hstep
    cases hstep
    dsimp only
    split_ifs with hdone
    · exact h.turnsMatching (by rw [hthread]; exact ⟨rfl, rfl⟩) hdone
    · exact h.turnsMatching (by rw [hthread]; exact ⟨rfl, rfl⟩) trivial
  | testEmpty =>
    rw [hthread] at hstep hstands
    cases hstep
    dsimp only
    split_ifs with hempty
    · exact h.turnsMatching (by rw [hthread]; exact ⟨rfl, rfl⟩) ⟨hstands, hempty⟩
    · exact h.turnsMatching (by rw [hthread]; exact ⟨rfl, rfl⟩) trivial
  | popBatch =>
    rw [hthread] at hstep
    dsimp only at hstep ⊢
    split_ifs at hstep with hsize hzero <;> cases hstep
    · exact h.turnsMatching (by rw [hthread]; exact ⟨rfl, rfl⟩) trivial
    · exact
        { h with
          commands := by
            rw [h.commands, hthread]
            show log.executed ++ [] ++ s.ingress.items =
              log.executed ++ (s.ingress.popBatch popped).1 ++ (s.ingress.popBatch popped).2.items
            rw [List.append_nil, List.append_assoc, Fifo.popBatch_append]
          completed := by rw [h.completed, hthread]; rfl
          matching := trivial }
  | execute batch =>
    rw [hthread] at hstep
    cases batch with
    | nil =>
      cases hstep
      exact h.turnsMatching (by rw [hthread]; exact ⟨rfl, rfl⟩) trivial
    | cons msg batch =>
      cases hstep
      exact
        { h with
          commands := by
            rw [h.commands, hthread]
            show log.executed ++ (msg :: batch) ++ _ = log.executed ++ [msg] ++ batch ++ _
            rw [List.append_assoc log.executed [msg], List.singleton_append]
          completed := by
            rw [List.map_append, h.completed, hthread]
            show log.drained ++ s.completions.items ++ [] ++ _ = _
            rw [List.append_nil]
            rfl
          book := by
            show (executeCommand s.book msg s.trades).1 = _
            rw [runMessages_concat, ← h.book, h.trades]
          trades := trades_executeCommand ..
          matching := trivial }
  | complete c batch =>
    rw [hthread] at hstep
    dsimp only at hstep ⊢
    cases hpush : s.completions.push c with
    | none =>
      rw [hpush] at hstep
      cases hstep
      exact h
    | some completions =>
      rw [hpush] at hstep
      cases hstep
      exact
        { h with
          commands := by rw [h.commands, hthread]; rfl
          completed := by
            rw [h.completed, hthread]
            show log.drained ++ s.completions.items ++ [c] = log.drained ++ completions.items ++ []
            rw [(Fifo.push_eq_some_iff.mp hpush).2, List.append_nil, List.append_assoc]
          matching := trivial }
  | exited =>
    rw [hthread] at hstep
    cases hstep

/-- Every move of a run keeps the accounts. -/
theorem move (h : Tally p s log) {a : Choice} (hstep : step p a s = some s') :
    Tally p s' (log.record p ⟨s, a, s'⟩) := by
  cases a with
  | ingest popped t1 ts => exact h.ingestMove hstep
  | matching popped => exact h.matchingMove hstep

theorem of_trace {ms : List (Move (ClosedLoop _) Choice)} {s : ClosedLoop _}
    (h : Trace (step p) (ClosedLoop.start p) ms s) : Tally p s (ms.foldl (Log.record p) {}) :=
  h.fold_invariant (I := Tally p) (P := fun _ => True) (Log.record p)
    (fun _ _ _ _ ht hs _ => ht.move hs) (.start p) fun _ _ => trivial

end Tally

end ClosedLoop

end Titan
