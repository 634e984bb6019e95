import Titan.Benchmark.Workload
import Titan.Gateway.Server

/-! The closed-loop benchmark: an ingest thread that may have `window` unacknowledged commands at
    most, a matching thread, and a queue each way.

    A move of a thread is one access to what the threads share, with the local steps up to the next
    one. The thread that moves is chosen from outside, as are the clock and the size of a batch: a pop
    finds at most what is in the queue, and may find less. -/

namespace Titan
open Schemes

structure Completion where
  ingressTs : Timestamp := 0
  deriving DecidableEq

/-- The arguments of `run_closed_loop_e2e`. -/
structure Setup where
  actions : List OrderAction
  batchSize : UInt64
  window : UInt64

def makeMessage (index : ℕ) (act : OrderAction) (ts : Timestamp) : IngressMessage where
  sequence := UInt64.ofNat index + 1
  clientFd := 1
  ingressTimestamp := ts
  command := match act.type with
    | .newOrder => { type := .new, order := act.order }
    | .cancelOrder => { type := .cancel, cancelId := act.cancelId }

namespace ClosedLoop

/-- The effect of a message on the book, and the trades, which are cleared behind it. -/
def executeCommand (book : PoolOrderBook) (msg : IngressMessage) (trades : List Trade) :
    PoolOrderBook × List Trade :=
  match msg.command.type with
  | .new => ((book.submitOrder msg.command.order trades).2.2, [])
  | .cancel => ((book.cancelOrder msg.command.cancelId).2, [])
  | _ => (book, [])

/-- Where the ingest thread is. -/
inductive Ingest where
  /-- The test of the loop over the actions. -/
  | next
  | waitForCredit (act : OrderAction)
  | push (act : OrderAction) (msg : IngressMessage)
  /-- The body of the loop that retries a push. -/
  | retry (act : OrderAction)
  /-- The loop that drains what is still in flight. -/
  | drainRest
  | setDone
  | exited

/-- Where the matching thread is. -/
inductive Matching where
  | testDone
  | testEmpty
  | popBatch
  | execute (batch : List IngressMessage)
  /-- The push of a completion, retried until it succeeds. -/
  | complete (c : Completion) (batch : List IngressMessage)
  | exited

end ClosedLoop

/-- Two queues of `n` slots, what the threads share, and what each has for itself. -/
structure ClosedLoop (n : ℕ) where
  book : PoolOrderBook
  ingress : Fifo IngressMessage n := .empty
  completions : Fifo Completion n := .empty
  producerDone : Bool := false
  latenciesNs : List UInt64 := []
  inFlight : UInt64 := 0
  i : ℕ := 0
  ingest : ClosedLoop.Ingest := .next
  trades : List Trade := []
  matching : ClosedLoop.Matching := .testDone

namespace ClosedLoop
variable {n : ℕ}

/-- `drain_completions(…, 64, …)` -/
def drainSize : ℕ := 64

/-- Drain `popped` completions, seen at `t1`, and give their credit back. -/
def drainCompletions (popped : ℕ) (t1 : Timestamp) (s : ClosedLoop n) : Option (ClosedLoop n) :=
  if popped ≤ drainSize ∧ popped ≤ s.completions.items.length then
    let (batch, completions) := s.completions.popBatch popped
    let seen := batch.filter fun c => c.ingressTs ≤ t1
    some { s with
      completions := completions
      latenciesNs := s.latenciesNs ++ seen.map fun c => t1 - c.ingressTs
      inFlight := s.inFlight - UInt64.ofNat popped }
  else none

/-- The next step of the ingest thread; `popped` is the size of the batch, if it drains one, at time
    `t1`; `ts` is the time stamp of a message that it makes. -/
def ingestStep (p : Setup) (popped : ℕ) (t1 ts : Timestamp) (s : ClosedLoop n) :
    Option (ClosedLoop n) :=
  match s.ingest with
  | .next =>
    match p.actions[s.i]? with
    | some act => some { s with ingest := .waitForCredit act }
    | none => some { s with ingest := .drainRest }
  | .waitForCredit act =>
    if p.window ≤ s.inFlight then s.drainCompletions popped t1
    else some { s with ingest := .push act (makeMessage s.i act ts) }
  | .push act msg =>
    match s.ingress.push msg with
    | some ingress => some { s with
      ingress := ingress, inFlight := s.inFlight + 1, i := s.i + 1, ingest := .next }
    | none => some { s with ingest := .retry act }
  | .retry act =>
    (s.drainCompletions popped t1).map fun s =>
      { s with ingest := .push act (makeMessage s.i act ts) }
  | .drainRest =>
    if 0 < s.inFlight then s.drainCompletions popped t1 else some { s with ingest := .setDone }
  | .setDone => some { s with producerDone := true, ingest := .exited }
  | .exited => none

/-- The next step of the matching thread; `popped` is the size of the batch, if it pops one. -/
def matchingStep (p : Setup) (popped : ℕ) (s : ClosedLoop n) : Option (ClosedLoop n) :=
  match s.matching with
  | .testDone => some { s with matching := if s.producerDone then .testEmpty else .popBatch }
  | .testEmpty => some { s with matching := if s.ingress.items = [] then .exited else .popBatch }
  | .popBatch =>
    -- the vector of the batch is empty: it is cleared behind each round
    if popped ≤ p.batchSize.toNat ∧ popped ≤ s.ingress.items.length then
      let (batch, ingress) := s.ingress.popBatch popped
      if popped = 0 then some { s with matching := .testDone }
      else some { s with ingress := ingress, matching := .execute batch }
    else none
  | .execute [] => some { s with matching := .testDone }
  | .execute (msg :: batch) =>
    let (book, trades) := executeCommand s.book msg s.trades
    let c := { ingressTs := msg.ingressTimestamp }
    some { s with book := book, trades := trades, matching := .complete c batch }
  | .complete c batch =>
    match s.completions.push c with
    | some completions => some { s with completions := completions, matching := .execute batch }
    | none => some s
  | .exited => none

inductive Choice where
  | ingest (popped : ℕ) (t1 ts : Timestamp)
  | matching (popped : ℕ)

def step (p : Setup) : Choice → ClosedLoop n → Option (ClosedLoop n)
  | .ingest popped t1 ts, s => ingestStep p popped t1 ts s
  | .matching popped, s => matchingStep p popped s

/-- The benchmark when its threads have been launched. -/
def start (p : Setup) : ClosedLoop (roundUpPowerOfTwo 65536).toNat :=
  { book := .ctor p.actions.length }

/-- Both threads can be joined. -/
def Finished (s : ClosedLoop n) : Prop := s.ingest = .exited ∧ s.matching = .exited

/-! ### Waiting -/

/-- The ingest thread goes round a loop in vain: no completion has come, and without one it lacks
    credit, or room for its message, or what it still has to drain. -/
def ingestBlocked (p : Setup) (s : ClosedLoop n) : Prop :=
  s.completions.items = [] ∧ match s.ingest with
    | .waitForCredit _ => p.window ≤ s.inFlight
    | .push _ msg => s.ingress.push msg = none
    | .retry _ => s.ingress.items.length = n
    | .drainRest => 0 < s.inFlight
    | _ => False

/-- The matching thread goes round a loop in vain: no pop can find a message and the loop is not at
    its end, or there is no room for a completion. -/
def matchingBlocked (p : Setup) (s : ClosedLoop n) : Prop :=
  match s.matching with
  | .testDone | .testEmpty | .popBatch => min p.batchSize.toNat s.ingress.items.length = 0 ∧
      ¬ (s.producerDone ∧ s.ingress.items = [])
  | .complete c _ => s.completions.push c = none
  | .execute _ | .exited => False

/-! ### The log of a run -/

/-- The messages that a run pushed and executed, and the completions that it drained. -/
structure Log where
  pushed : List IngressMessage := []
  executed : List IngressMessage := []
  drained : List Completion := []

/-- The step of the ingest thread drains completions. -/
def drains (p : Setup) (s : ClosedLoop n) : Bool :=
  match s.ingest with
  | .waitForCredit _ => p.window ≤ s.inFlight
  | .retry _ => true
  | .drainRest => 0 < s.inFlight
  | _ => false

def recordIngest (p : Setup) (s : ClosedLoop n) (log : Log) (popped : ℕ) : Log :=
  match s.ingest with
  | .push _ msg =>
    if s.ingress.push msg = none then log else { log with pushed := log.pushed ++ [msg] }
  | _ =>
    if s.drains p then { log with drained := log.drained ++ (s.completions.popBatch popped).1 }
    else log

def recordMatching (s : ClosedLoop n) (log : Log) : Log :=
  match s.matching with
  | .execute (msg :: _) => { log with executed := log.executed ++ [msg] }
  | _ => log

def Log.record (p : Setup) (log : Log) (m : Move (ClosedLoop n) Choice) : Log :=
  match m.choice with
  | .ingest popped _ _ => m.before.recordIngest p log popped
  | .matching _ => m.before.recordMatching log

end ClosedLoop

end Titan
