import Titan.Queue.Capacity
import Titan.Schemes.Machine

/-! The lock-free queue, one memory access a step.

    Every store to `tail_` and `head_` is kept, in modification order. A release store carries what
    its thread had done to the slots by then; an acquire load may read any store that is not older
    than the last one it has read, and learns what that store carries. Each slot keeps all that was
    written to it, and a read may see any write that is not older than the newest one known to the
    reader. Reads are counted too, so that a write can be seen to come after them. The counters are
    64 bits wide and wrap. -/

namespace Titan
open Schemes

/-- What a thread knows of the accesses to each slot. -/
abbrev View := ℕ → ℕ

/-- A store to a counter, with the view that it releases. -/
structure Store where
  value : UInt64
  view : View

/-- `pop` or `pop_batch`. -/
inductive Request where
  | pop
  | popBatch (maxItems : UInt64)

/-- Where the producer is in `push`. -/
inductive Producer (α : Type) where
  | idle
  | loadTail (item : α)
  | loadHead (item : α) (currentTail : UInt64)
  | writeSlot (item : α) (currentTail : UInt64)
  | storeTail (item : α) (currentTail : UInt64)

/-- Where the consumer is in `pop` or `pop_batch`; `out` is what it has moved out so far. -/
inductive Consumer (α : Type) where
  | idle
  | loadHead (req : Request)
  | loadTail (req : Request) (currentHead : UInt64)
  | readSlot (currentHead count : UInt64) (out : List α)
  | storeHead (currentHead count : UInt64) (out : List α)

structure SpscQueue (α : Type) where
  capacity : UInt64
  mask : UInt64
  /-- The stores to `tail_`, each with the writes that it releases. -/
  tails : List Store
  /-- The stores to `head_`, each with the reads that it releases. -/
  heads : List Store
  /-- All that was written to each slot of `buffer_`, its initial content first. -/
  slots : ℕ → List α
  /-- How often each slot was read. -/
  reads : View
  producer : Producer α
  /-- The store to `head_` that the producer has read last. -/
  headSeen : ℕ
  /-- The reads that the producer knows of. -/
  readsSeen : View
  consumer : Consumer α
  /-- The store to `tail_` that the consumer has read last. -/
  tailSeen : ℕ
  /-- The writes that the consumer knows of. -/
  writesSeen : View

namespace SpscQueue
variable {α : Type}

/-- The queue after its constructor. -/
def ctor [Inhabited α] (capacity : UInt64) : SpscQueue α where
  capacity := roundUpPowerOfTwo capacity
  mask := roundUpPowerOfTwo capacity - 1
  tails := [⟨0, fun _ => 0⟩]
  heads := [⟨0, fun _ => 0⟩]
  slots _ := [default]
  reads _ := 0
  producer := .idle
  headSeen := 0
  readsSeen _ := 0
  consumer := .idle
  tailSeen := 0
  writesSeen _ := 0

/-- The slot of a counter value. -/
def slot (q : SpscQueue α) (counter : UInt64) : ℕ := (counter &&& q.mask).toNat

/-- The value of `tail_`, as its own thread loads it. -/
def tail (q : SpscQueue α) : UInt64 := (q.tails.getLast?.map (·.value)).getD 0

/-- The value of `head_`, as its own thread loads it. -/
def head (q : SpscQueue α) : UInt64 := (q.heads.getLast?.map (·.value)).getD 0

/-- The writes made so far; the initial content of a slot is none. -/
def writes (q : SpscQueue α) : View := fun k => (q.slots k).length - 1

/-- The next access of `push`. `seen` is the store that an acquire load reads. -/
def producerStep (seen : ℕ) (q : SpscQueue α) : Option (SpscQueue α) :=
  match q.producer with
  | .idle => none
  | .loadTail item => some { q with producer := .loadHead item q.tail }
  | .loadHead item currentTail =>
    match q.heads[seen]? with
    | none => none
    | some store =>
      if q.headSeen ≤ seen then
        let q := { q with headSeen := seen, readsSeen := fun k => max (q.readsSeen k) (store.view k) }
        if currentTail - store.value ≥ q.capacity then some { q with producer := .idle }
        else some { q with producer := .writeSlot item currentTail }
      else none
  | .writeSlot item currentTail =>
    let k := q.slot currentTail
    some { q with
      slots := Function.update q.slots k (q.slots k ++ [item]),
      producer := .storeTail item currentTail }
  | .storeTail _ currentTail =>
    some { q with tails := q.tails ++ [⟨currentTail + 1, q.writes⟩], producer := .idle }

/-- How many items a request takes from `available`, of which there is at least one. -/
def want (available : UInt64) : Request → UInt64
  | .pop => 1
  | .popBatch maxItems => if available < maxItems then available else maxItems

/-- The next access of `pop` or `pop_batch`. `seen` is the store that an acquire load reads, or the
    write that a read of a slot sees. -/
def consumerStep (seen : ℕ) (q : SpscQueue α) : Option (SpscQueue α) :=
  match q.consumer with
  | .idle => none
  | .loadHead req => some { q with consumer := .loadTail req q.head }
  | .loadTail req currentHead =>
    match q.tails[seen]? with
    | none => none
    | some store =>
      if q.tailSeen ≤ seen then
        let q :=
          { q with tailSeen := seen, writesSeen := fun k => max (q.writesSeen k) (store.view k) }
        let available := store.value - currentHead
        if available = 0 then some { q with consumer := .idle }
        else
          let count := want available req
          if count = 0 then some { q with consumer := .storeHead currentHead count [] }
          else some { q with consumer := .readSlot currentHead count [] }
      else none
  | .readSlot currentHead count out =>
    let k := q.slot (currentHead + UInt64.ofNat out.length)
    match (q.slots k)[seen]? with
    | none => none
    | some item =>
      if q.writesSeen k ≤ seen then
        let q := { q with reads := Function.update q.reads k (q.reads k + 1) }
        let out := out ++ [item]
        if UInt64.ofNat out.length = count
        then some { q with consumer := .storeHead currentHead count out }
        else some { q with consumer := .readSlot currentHead count out }
      else none
  | .storeHead currentHead count _ =>
    some { q with heads := q.heads ++ [⟨currentHead + count, q.reads⟩], consumer := .idle }

/-- The thread that moves, and what it is shown. -/
inductive Access (α : Type) where
  | push (item : α)
  | producer (seen : ℕ)
  | request (req : Request)
  | consumer (seen : ℕ)

def step : Access α → SpscQueue α → Option (SpscQueue α)
  | .push item, q =>
    match q.producer with
    | .idle => some { q with producer := .loadTail item }
    | _ => none
  | .producer seen, q => producerStep seen q
  | .request req, q =>
    match q.consumer with
    | .idle => some { q with consumer := .loadHead req }
    | _ => none
  | .consumer seen, q => consumerStep seen q

end SpscQueue

/-- What the two threads have done: the items whose push has succeeded, the items returned to the
    consumer, and how many had been returned at each store to `head_`. -/
structure Traffic (α : Type) where
  pushed : List α := []
  returned : List α := []
  releases : List ℕ := [0]

def Traffic.record {α : Type} (log : Traffic α) (m : Move (SpscQueue α) (SpscQueue.Access α)) :
    Traffic α :=
  match m.choice, m.before.producer, m.before.consumer with
  | .producer _, .storeTail item _, _ => { log with pushed := log.pushed ++ [item] }
  | .consumer _, _, .storeHead _ _ out => { log with
      returned := log.returned ++ out,
      releases := log.releases ++ [(log.returned ++ out).length] }
  | _, _, _ => log

end Titan
