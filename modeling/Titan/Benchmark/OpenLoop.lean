import Titan.Benchmark.Progress
import Titan.Schemes.Fair

/-! The open-loop benchmark: an ingest thread that never waits for completions, and a matching thread.

    A move of a thread is one access to what the threads share, with the local steps up to the next
    one; a thread that has returned stays where it is. The flag `producer_done` is read before the
    queue is found empty, so the matching thread leaves nothing behind. -/

namespace Titan
open Schemes

namespace OpenLoop

/-- Where the ingest thread is. -/
inductive Ingest where
  /-- The test of the loop over the actions. -/
  | next
  /-- The push of a message, retried until it succeeds. -/
  | push (msg : IngressMessage)
  | setDone
  | exited

/-- Where the matching thread is. -/
inductive Matching where
  | testDone
  | testEmpty
  | popBatch
  | execute (batch : List IngressMessage)
  | exited

/-- The messages that the matching thread has popped and not yet executed. -/
def Matching.batch : Matching → List IngressMessage
  | .execute batch => batch
  | _ => []

end OpenLoop

/-- The queue of `n` slots, what the threads share, and what each has for itself. -/
structure OpenLoop (n : ℕ) where
  book : PoolOrderBook
  ingress : Fifo IngressMessage n := .empty
  producerDone : Bool := false
  i : ℕ := 0
  ingest : OpenLoop.Ingest := .next
  trades : List Trade := []
  matching : OpenLoop.Matching := .testDone

namespace OpenLoop
variable {n : ℕ} (actions : List OrderAction) (batchSize : UInt64)

def ingestStep (s : OpenLoop n) : OpenLoop n :=
  match s.ingest with
  | .next =>
    match actions[s.i]? with
    | some act => { s with ingest := .push (makeMessage s.i act 0) }
    | none => { s with ingest := .setDone }
  | .push msg =>
    match s.ingress.push msg with
    | some ingress => { s with ingress := ingress, i := s.i + 1, ingest := .next }
    | none => s
  | .setDone => { s with producerDone := true, ingest := .exited }
  | .exited => s

/-- The next step of the matching thread; `popped` is the size of the batch, if it pops one. -/
def matchingStep (popped : ℕ) (s : OpenLoop n) : Option (OpenLoop n) :=
  match s.matching with
  | .testDone => some { s with matching := if s.producerDone then .testEmpty else .popBatch }
  | .testEmpty => some { s with matching := if s.ingress.items = [] then .exited else .popBatch }
  | .popBatch =>
    if popped ≤ batchSize.toNat ∧ popped ≤ s.ingress.items.length then
      let (batch, ingress) := s.ingress.popBatch popped
      if popped = 0 then some { s with matching := .testDone }
      else some { s with ingress := ingress, matching := .execute batch }
    else none
  | .execute [] => some { s with matching := .testDone }
  | .execute (msg :: batch) =>
    let (book, trades) := ClosedLoop.executeCommand s.book msg s.trades
    some { s with book := book, trades := trades, matching := .execute batch }
  | .exited => some s

inductive Choice where
  | ingest
  | matching (popped : ℕ)

def step : Choice → OpenLoop n → Option (OpenLoop n)
  | .ingest, s => some (s.ingestStep actions)
  | .matching popped, s => s.matchingStep batchSize popped

/-- The benchmark when its threads have been launched. -/
def start : OpenLoop (roundUpPowerOfTwo 65536).toNat :=
  { book := .ctor actions.length }

/-- Both threads can be joined. -/
def Finished (s : OpenLoop n) : Prop := s.ingest = .exited ∧ s.matching = .exited

/-! ### What has been executed -/

/-- The messages of the first actions, in order, are executed or under way. -/
structure Tally (s : OpenLoop n) (executed : List IngressMessage) : Prop where
  messages : executed ++ s.matching.batch ++ s.ingress.items =
    (ClosedLoop.messages actions).take s.i
  book : s.book = ClosedLoop.runMessages (.ctor actions.length) executed
  index : s.i ≤ actions.length
  ingest : match s.ingest with
    | .next => True
    | .push msg => (ClosedLoop.messages actions)[s.i]? = some msg
    | .setDone | .exited => s.i = actions.length
  done : s.producerDone = true ↔ s.ingest = .exited
  trades : s.trades = []
  matching : match s.matching with
    | .testEmpty => s.producerDone = true
    | .exited => s.producerDone = true ∧ s.ingress.items = []
    | _ => True

theorem getElem?_messages (i : ℕ) :
    (ClosedLoop.messages actions)[i]? = actions[i]?.map fun act => makeMessage i act 0 := by
  rw [ClosedLoop.messages, List.getElem?_mapIdx]

theorem lt_of_getElem?_messages {actions : List OrderAction} {i : ℕ} {msg : IngressMessage}
    (h : (ClosedLoop.messages actions)[i]? = some msg) : i < actions.length := by
  obtain ⟨hlt, -⟩ := List.getElem?_eq_some_iff.mp h
  rw [ClosedLoop.messages, List.length_mapIdx] at hlt
  exact hlt

theorem messages_take (k : ℕ) :
    ClosedLoop.messages (actions.take k) = (ClosedLoop.messages actions).take k := by
  refine List.ext_getElem? fun i => ?_
  rw [getElem?_messages, List.getElem?_take, List.getElem?_take, getElem?_messages]
  split_ifs <;> rfl

/-- The messages of the first actions do to the book what these actions do. -/
theorem runMessages_take (book : PoolOrderBook) (k : ℕ) :
    ClosedLoop.runMessages book ((ClosedLoop.messages actions).take k) =
      (actions.take k).foldl OrderAction.run book := by
  refine ClosedLoop.runMessages_eq ?_
  rw [← messages_take]
  refine List.ext_getElem? fun i => ?_
  rw [List.getElem?_map, getElem?_messages, Option.map_map]
  rfl

namespace Tally
variable {actions} {batchSize} {s s' : OpenLoop n} {executed : List IngressMessage}

theorem start : Tally actions (OpenLoop.start actions) [] where
  messages := rfl
  book := rfl
  index := Nat.zero_le _
  ingest := trivial
  done := by simp [OpenLoop.start]
  trades := rfl
  matching := trivial

theorem ingestMove (h : Tally actions s executed) : Tally actions (s.ingestStep actions) executed := by
  have hingest := h.ingest
  have hmatching := h.matching
  have hdone := h.done
  unfold ingestStep
  cases hthread : s.ingest with
  | next =>
    have hnot : ¬ s.producerDone = true := by simp [hdone, hthread]
    dsimp only
    cases hact : actions[s.i]? with
    | some act =>
      refine { h with ingest := ?_, done := by simp [hnot] }
      dsimp only
      rw [getElem?_messages, hact]
      rfl
    | none =>
      have hlen := List.getElem?_eq_none_iff.mp hact
      exact { h with ingest := le_antisymm h.index hlen, done := by simp [hnot] }
  | push msg =>
    have hnot : ¬ s.producerDone = true := by simp [hdone, hthread]
    rw [hthread] at hingest
    dsimp only at hingest ⊢
    cases hpush : s.ingress.push msg with
    | none => exact h
    | some ingress =>
      obtain ⟨-, hitems⟩ := Fifo.push_eq_some_iff.mp hpush
      refine { h with messages := ?_, index := lt_of_getElem?_messages hingest, ingest := trivial,
                      done := by simp [hnot], matching := ?_ }
      · dsimp only
        rw [hitems, ← List.append_assoc, h.messages, List.take_add_one, hingest]
        rfl
      · -- the matching thread cannot be at its end before the flag is set
        dsimp only
        cases hm : s.matching with
        | testEmpty | exited => simp [hm, hnot] at hmatching
        | _ => trivial
  | setDone =>
    rw [hthread] at hingest
    refine { h with ingest := hingest, done := by simp, matching := ?_ }
    dsimp only
    cases hm : s.matching with
    | exited =>
      rw [hm] at hmatching
      exact ⟨rfl, hmatching.2⟩
    | testEmpty => rfl
    | _ => trivial
  | exited => exact h

theorem matchingMove (h : Tally actions s executed) {popped : ℕ}
    (hstep : s.matchingStep batchSize popped = some s') : ∃ executed', Tally actions s' executed' := by
  have hmessages := h.messages
  unfold matchingStep at hstep
  cases hthread : s.matching with
  | testDone =>
    rw [hthread] at hstep hmessages
    cases hstep
    refine ⟨executed, { h with messages := ?_, matching := ?_ }⟩
    · split_ifs <;> exact hmessages
    · dsimp only
      split_ifs with hdone
      · exact hdone
      · trivial
  | testEmpty =>
    have hmatching := h.matching
    rw [hthread] at hstep hmessages hmatching
    cases hstep
    refine ⟨executed, { h with messages := ?_, matching := ?_ }⟩
    · split_ifs <;> exact hmessages
    · dsimp only
      split_ifs with hempty
      · exact ⟨hmatching, hempty⟩
      · trivial
  | popBatch =>
    rw [hthread] at hstep hmessages
    dsimp only at hstep
    split_ifs at hstep
    · cases hstep
      exact ⟨executed, { h with messages := hmessages, matching := trivial }⟩
    · cases hstep
      refine ⟨executed, { h with messages := ?_, matching := trivial }⟩
      rw [← hmessages, List.append_assoc, List.append_assoc]
      exact congrArg _ (s.ingress.popBatch_append popped)
  | execute batch =>
    rw [hthread] at hstep hmessages
    cases batch with
    | nil =>
      cases hstep
      exact ⟨executed, { h with messages := hmessages, matching := trivial }⟩
    | cons msg batch =>
      cases hstep
      refine ⟨executed ++ [msg], { h with messages := ?_, book := ?_, trades := ?_, matching := trivial }⟩
      · rw [← hmessages, List.append_assoc executed]
        rfl
      · show (ClosedLoop.executeCommand s.book msg s.trades).1 = _
        rw [ClosedLoop.runMessages_concat, ← h.book, h.trades]
      · exact ClosedLoop.trades_executeCommand ..
  | exited =>
    rw [hthread] at hstep
    cases hstep
    exact ⟨executed, h⟩

theorem move (h : Tally actions s executed) {c : Choice} (hstep : step actions batchSize c s = some s') :
    ∃ executed', Tally actions s' executed' := by
  cases c with
  | ingest =>
    cases hstep
    exact ⟨executed, h.ingestMove⟩
  | matching popped => exact h.matchingMove hstep

/-- What has been executed are the first actions. -/
theorem executed_eq (h : Tally actions s executed) :
    executed = (ClosedLoop.messages actions).take executed.length := by
  have hfirst : executed <+: (ClosedLoop.messages actions).take s.i := by
    rw [← h.messages, List.append_assoc]
    exact List.prefix_append ..
  exact List.prefix_iff_eq_take.mp (hfirst.trans (List.take_prefix ..))

theorem book_eq (h : Tally actions s executed) : s.book =
    (actions.take executed.length).foldl OrderAction.run (.ctor actions.length) := by
  rw [h.book, h.executed_eq, runMessages_take, ← h.executed_eq]

theorem length_eq (h : Tally actions s executed) :
    executed.length + s.matching.batch.length + s.ingress.items.length = s.i := by
  have hlength := congrArg List.length h.messages
  rw [List.length_append, List.length_append, List.length_take, ClosedLoop.messages,
    List.length_mapIdx, min_eq_left h.index] at hlength
  exact hlength

/-- What is under way are the messages of the actions that come next. -/
theorem underway_eq (h : Tally actions s executed) : s.matching.batch ++ s.ingress.items =
    ((ClosedLoop.messages actions).take s.i).drop executed.length := by
  rw [← h.messages, List.append_assoc, List.drop_left]

/-- When both threads have returned, nothing is left. -/
theorem complete (h : Tally actions s executed) (hf : s.Finished) :
    s.book = actions.foldl OrderAction.run (.ctor actions.length) := by
  have hingest := h.ingest
  have hmatching := h.matching
  have hlength := h.length_eq
  rw [hf.1] at hingest
  rw [hf.2] at hmatching hlength
  rw [hmatching.2] at hlength
  have hall : executed.length = actions.length := by simpa [Matching.batch, hingest] using hlength
  rw [h.book_eq, hall, List.take_length]

end Tally

/-! ### Runs that forget no thread -/

inductive Thread where | ingest | matching
  deriving DecidableEq

def Choice.thread : Choice → Option Thread
  | .ingest => some .ingest
  | .matching _ => some .matching

/-- A pop finds something, if there is something. -/
def Calm (s : OpenLoop n) : Choice → Prop
  | .ingest => True
  | .matching popped => s.ingress.items ≠ [] → 0 < popped

/-- Something waits for the matching thread. -/
def HasMessages (s : OpenLoop n) : Prop := 0 < s.matching.batch.length + s.ingress.items.length

instance (s : OpenLoop n) : Decidable s.HasMessages := inferInstanceAs (Decidable (_ < _))

def Matching.toGo : Matching → ℕ
  | .exited => 0
  | _ => 1

/-- What is left to do: pushes, pops and executions, the flag, and the end of the loop. -/
def work (s : OpenLoop n) : ℕ :=
  3 * (actions.length - s.i) + 2 * s.ingress.items.length + s.matching.batch.length +
    (if s.producerDone then 0 else 1) + s.matching.toGo

/-- Without messages the matching thread waits for the ingest thread, until that is done. -/
def due (s : OpenLoop n) : Thread :=
  if s.HasMessages ∨ s.producerDone = true then .matching else .ingest

def Ingest.rank : Ingest → ℕ
  | .next => 1
  | _ => 0

/-- How far it is to the next pop, or to the end of the loop. -/
def Matching.rank (hasMessages : Prop) [Decidable hasMessages] : Matching → ℕ
  | .execute [] => 4
  | .testDone => if hasMessages then 3 else 2
  | .testEmpty => if hasMessages then 2 else 1
  | .popBatch => if hasMessages then 1 else 3
  | _ => 0

def rank (s : OpenLoop n) : ℕ :=
  if s.HasMessages ∨ s.producerDone = true then s.matching.rank s.HasMessages else s.ingest.rank

/-- The threads are where their messages say, and the run is not over. -/
def Serving (s : OpenLoop n) : Prop := ∃ executed, Tally actions s executed

section Fairness
variable {actions} {batchSize} {s s' : OpenLoop n}

theorem ingest_helps (hn : 0 < n) (h : s.Serving actions) :
    Endless.Helps Choice.thread (work actions) rank due ⟨s, .ingest, s.ingestStep actions⟩ := by
  obtain ⟨executed, h⟩ := h
  have hingest := h.ingest
  have hdone := h.done
  unfold Endless.Helps ingestStep
  dsimp only
  cases hthread : s.ingest with
  | next =>
    have hnot : ¬ s.producerDone = true := by simp [hdone, hthread]
    dsimp only
    cases actions[s.i]? with
    | some act | none =>
      refine .inr ⟨rfl, rfl, ?_, ?_⟩
      · unfold rank HasMessages
        dsimp only
        split_ifs
        · exact le_rfl
        · exact Nat.zero_le _
      · intro hdue
        unfold due at hdue
        split_ifs at hdue with hmatching
        · cases hdue
        · have hnone : ¬ (0 < s.matching.batch.length + s.ingress.items.length ∨
              s.producerDone = true) := hmatching
          unfold rank HasMessages
          dsimp only
          rw [if_neg hnone, if_neg hnone, hthread]
          exact Nat.zero_lt_one
  | push msg =>
    rw [hthread] at hingest
    dsimp only at hingest ⊢
    cases hpush : s.ingress.push msg with
    | some ingress =>
      obtain ⟨-, hitems⟩ := Fifo.push_eq_some_iff.mp hpush
      have hlt := lt_of_getElem?_messages hingest
      refine .inl ?_
      unfold work
      dsimp only
      rw [hitems, List.length_append, List.length_singleton]
      omega
    | none =>
      -- the queue is full, so the matching thread has something to do
      have hfull := Fifo.push_eq_none_iff.mp hpush
      refine .inr ⟨rfl, rfl, le_rfl, fun hdue => ?_⟩
      have hsome : s.HasMessages := by
        unfold HasMessages
        omega
      rw [due, if_pos (.inl hsome)] at hdue
      cases hdue
  | setDone =>
    have hnot : s.producerDone = false := by simp [Bool.eq_false_iff, hdone, hthread]
    refine .inl ?_
    unfold work
    simp [hnot]
  | exited =>
    refine .inr ⟨rfl, rfl, le_rfl, fun hdue => ?_⟩
    rw [due, if_pos (.inr (hdone.mpr hthread))] at hdue
    cases hdue

theorem matching_helps (h : s.Serving actions) (hopen : ¬ s.Finished) {popped : ℕ}
    (hstep : s.matchingStep batchSize popped = some s') (hcalm : s.Calm (.matching popped)) :
    Endless.Helps Choice.thread (work actions) rank due ⟨s, .matching popped, s'⟩ := by
  obtain ⟨executed, h⟩ := h
  -- the thread goes on within its loop
  have hgoes : ∀ thread : Matching, thread.batch = s.matching.batch → thread.toGo = s.matching.toGo →
      (s.HasMessages ∨ s.producerDone = true →
        thread.rank s.HasMessages < s.matching.rank s.HasMessages) →
      Endless.Helps Choice.thread (work actions) rank due
        ⟨s, .matching popped, { s with matching := thread }⟩ := by
    intro thread hbatch htoGo hrank
    have hsame : { s with matching := thread }.HasMessages = s.HasMessages := by
      unfold HasMessages
      rw [hbatch]
    refine .inr ⟨?_, ?_, ?_, ?_⟩
    · simp only [work, hbatch, htoGo]
    · simp only [due, hsame]
    · simp only [rank, hsame]
      split_ifs with hmatching
      · exact (hrank hmatching).le
      · exact le_rfl
    · intro hdue
      have hmatching : s.HasMessages ∨ s.producerDone = true := by
        by_contra hno
        simp [due, hno, Choice.thread] at hdue
      simp only [rank, hsame, if_pos hmatching]
      exact hrank hmatching
  have hmatching := h.matching
  unfold matchingStep at hstep
  cases hthread : s.matching with
  | testDone =>
    rw [hthread] at hstep hgoes
    cases hstep
    refine hgoes _ (by split_ifs <;> rfl) (by split_ifs <;> rfl) fun hor => ?_
    by_cases hdone : s.producerDone = true
    · rw [if_pos hdone]
      simp only [Matching.rank]
      split_ifs <;> omega
    · have hsome := hor.resolve_right hdone
      rw [if_neg hdone]
      simp [Matching.rank, hsome]
  | testEmpty =>
    rw [hthread] at hstep
    cases hstep
    by_cases hempty : s.ingress.items = []
    · refine .inl ?_
      simp [work, hempty, hthread, Matching.toGo, Matching.batch]
    · rw [hthread] at hgoes
      rw [if_neg hempty]
      refine hgoes _ rfl rfl fun _ => ?_
      have hsome : s.HasMessages := by
        have hpos := List.length_pos_iff.mpr hempty
        unfold HasMessages
        omega
      simp [Matching.rank, hsome]
  | popBatch =>
    rw [hthread] at hstep hgoes
    dsimp only at hstep
    split_ifs at hstep with hle hzero
    · cases hstep
      refine hgoes _ rfl rfl fun _ => ?_
      have hempty : s.ingress.items = [] := by
        by_contra hne
        have hpos : 0 < popped := hcalm hne
        omega
      have hnone : ¬ s.HasMessages := by simp [HasMessages, hthread, hempty, Matching.batch]
      simp [Matching.rank, hnone]
    · cases hstep
      refine .inl ?_
      simp only [work, hthread, Matching.batch, Matching.toGo, List.length_drop, Fifo.popBatch,
        List.length_take, List.length_nil]
      omega
  | execute batch =>
    rw [hthread] at hstep hgoes
    cases batch with
    | nil =>
      cases hstep
      refine hgoes _ rfl rfl fun _ => ?_
      simp only [Matching.rank]
      split_ifs <;> omega
    | cons msg batch =>
      cases hstep
      refine .inl ?_
      simp [work, hthread, Matching.batch, Matching.toGo]
  | exited =>
    rw [hthread] at hmatching
    exact absurd ⟨h.done.mp hmatching.1, hthread⟩ hopen

theorem Serving.move (h : s.Serving actions) {c : Choice} (hstep : step actions batchSize c s = some s') :
    s'.Serving actions := by
  obtain ⟨executed, h⟩ := h
  exact h.move hstep

theorem Serving.of_trace {ms : List (Move (OpenLoop _) Choice)} {s : OpenLoop _}
    (h : Trace (step actions batchSize) (start actions) ms s) : s.Serving actions :=
  h.invariant (P := fun _ => True) (I := Serving actions) (fun _ _ _ hs hstep _ => hs.move hstep)
    ⟨[], .start⟩ fun _ _ => trivial

/-- Before the run is over every move helps. -/
theorem Serving.helps (hn : 0 < n) (h : s.Serving actions) (hopen : ¬ s.Finished) {c : Choice}
    (hstep : step actions batchSize c s = some s') (hcalm : s.Calm c) :
    s'.Serving actions ∧ Endless.Helps Choice.thread (work actions) rank due ⟨s, c, s'⟩ := by
  refine ⟨h.move hstep, ?_⟩
  cases c with
  | ingest =>
    cases hstep
    exact ingest_helps hn h
  | matching popped => exact matching_helps h hopen hstep hcalm

/-- Both threads can always move. -/
theorem exists_move (hbatchSize : 1 ≤ batchSize) (s : OpenLoop n) (t : Thread) :
    ∃ c s', step actions batchSize c s = some s' ∧ s.Calm c ∧ c.thread = some t := by
  cases t with
  | ingest => exact ⟨.ingest, _, rfl, trivial, rfl⟩
  | matching =>
    refine ⟨.matching (min batchSize.toNat s.ingress.items.length), ?_⟩
    have hcalm : s.Calm (.matching (min batchSize.toNat s.ingress.items.length)) := by
      intro hne
      exact lt_min (UInt64.le_iff_toNat_le.mp hbatchSize) (List.length_pos_iff.mpr hne)
    suffices hsome : (s.matchingStep batchSize (min batchSize.toNat s.ingress.items.length)).isSome by
      obtain ⟨s', hs'⟩ := Option.isSome_iff_exists.mp hsome
      exact ⟨s', hs', hcalm, rfl⟩
    unfold matchingStep
    split
    · rfl
    · rfl
    · dsimp only
      rw [if_pos ⟨min_le_left .., min_le_right ..⟩]
      split_ifs <;> rfl
    · rfl
    · rfl
    · rfl

end Fairness

/-- Whatever the threads do, the book is that of the first actions, and what is under way comes next;
    when both threads have returned it is that of all actions, one after the other. Every run that
    forgets neither thread gets there, and there are such runs. -/
theorem open_loop_total (actions : List OrderAction) (batchSize : UInt64)
    (hbatchSize : 1 ≤ batchSize) :
    (∀ ms s, Trace (step actions batchSize) (start actions) ms s →
      (∃ k, s.book = (actions.take k).foldl OrderAction.run (.ctor actions.length) ∧
        s.matching.batch ++ s.ingress.items = ((ClosedLoop.messages actions).take s.i).drop k ∧
        k + s.matching.batch.length + s.ingress.items.length = s.i ∧ s.i ≤ actions.length) ∧
      (s.Finished → s.book = actions.foldl OrderAction.run (.ctor actions.length))) ∧
    (∃ r : Endless (step actions batchSize), r.state 0 = start actions ∧
      (∀ i, (r.state i).Calm (r.choice i)) ∧ r.Fair Choice.thread) ∧
    ∀ r : Endless (step actions batchSize), r.state 0 = start actions →
      (∀ i, (r.state i).Calm (r.choice i)) → r.Fair Choice.thread → ∃ i, (r.state i).Finished ∧
        (r.state i).book = actions.foldl OrderAction.run (.ctor actions.length) := by
  have hstart : (start actions).Serving actions := ⟨[], .start⟩
  have hn := ClosedLoop.capacity_pos
  refine ⟨fun ms s h => ?_, ?_, ?_⟩
  · obtain ⟨executed, h⟩ := Serving.of_trace h
    exact ⟨⟨executed.length, h.book_eq, h.underway_eq, h.length_eq, h.index⟩, h.complete⟩
  · refine Endless.exists_fair (I := Serving actions) (P := fun m => m.before.Calm m.choice)
      Choice.thread (fun i => if i % 2 = 0 then .ingest else .matching) ?_ ?_ hstart
    · rintro (_ | _) i
      · exact ⟨2 * i, by omega, by simp⟩
      · exact ⟨2 * i + 1, by omega, if_neg (by omega)⟩
    · intro s t hs
      obtain ⟨c, s', hstep, hcalm, ht⟩ := exists_move hbatchSize s t
      exact ⟨c, s', hstep, hcalm, ht, hs.move hstep⟩
  · intro r hr hcalm hfair
    obtain ⟨i, hfinished⟩ := r.eventually (P := fun m => m.before.Calm m.choice)
      (fun _ _ _ hs hopen hstep hc => hs.helps hn hopen hstep hc) hfair hcalm (i := 0) (hr ▸ hstart)
    have htrace := r.trace i
    rw [hr] at htrace
    obtain ⟨executed, h⟩ := Serving.of_trace htrace
    exact ⟨i, hfinished, h.complete hfinished⟩

/-- A sell, a buy that takes half of it, and a cancel of the rest. -/
def halfTaken : List OrderAction :=
  [{ type := .newOrder, order := { orderId := 1, price := 100, initialQuantity := 4, side := .sell } },
   { type := .newOrder, order := { orderId := 2, price := 100, initialQuantity := 2 } },
   { type := .cancelOrder, cancelId := 1 }]

theorem open_loop_total_halfTaken :
    ∃ r : Endless (step (n := (roundUpPowerOfTwo 65536).toNat) halfTaken 1), r.Fair Choice.thread ∧
      (∀ i, ∃ k, (r.state i).book = (halfTaken.take k).foldl OrderAction.run (.ctor 3) ∧
        (r.state i).matching.batch ++ (r.state i).ingress.items =
          ((ClosedLoop.messages halfTaken).take (r.state i).i).drop k) ∧
      ∃ i, (r.state i).Finished ∧ (r.state i).book.totalOrders = 0 := by
  obtain ⟨hevery, ⟨r, hr, hcalm, hfair⟩, hall⟩ := open_loop_total halfTaken 1 (by decide)
  obtain ⟨i, hfinished, hbook⟩ := hall r hr hcalm hfair
  refine ⟨r, hfair, fun i => ?_, i, hfinished, ?_⟩
  · have htrace := r.trace i
    rw [hr] at htrace
    obtain ⟨⟨k, hk, hunderway, -⟩, -⟩ := hevery _ _ htrace
    exact ⟨k, hk, hunderway⟩
  · rw [hbook]
    decide

end OpenLoop

end Titan
