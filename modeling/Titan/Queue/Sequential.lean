import Titan.Queue.Capacity
import Titan.Schemes.Fifo
import Titan.Schemes.History
import Titan.Schemes.Ring

/-! The queue as one thread sees it, call by call.

    The counters are 64 bits wide and start anywhere. Whatever they pass on their way, the calls are
    those of a first-in first-out queue of as many places as the capacity. -/

namespace Titan
open Schemes

namespace Sequential

structure SpscQueue (α : Type) where
  capacity : UInt64
  mask : UInt64
  buffer : List α
  tail : UInt64 := 0
  head : UInt64 := 0
  deriving DecidableEq

/-- A call with what the caller passes: the item to push, or the object to move an item into. -/
inductive QueueCall (α : Type) where
  | push (item : α)
  /-- `push(T&&)` -/
  | pushMove (item : α)
  | pop (outItem : α)
  | popBatch (outItems : List α) (maxItems : UInt64)
  | empty

/-- What a call returns, and what it leaves in what the caller has passed. -/
inductive QueueReply (α : Type) where
  | push (ok : Bool) (item : α)
  | pop (ok : Bool) (outItem : α)
  | popBatch (count : UInt64) (outItems : List α)
  | empty (answer : Bool)
  deriving DecidableEq

namespace SpscQueue
variable {α : Type} [Inhabited α]

def ctor (capacity : UInt64) : SpscQueue α where
  capacity := roundUpPowerOfTwo capacity
  mask := roundUpPowerOfTwo capacity - 1
  buffer := List.replicate (roundUpPowerOfTwo capacity).toNat default

/-- The slot of a counter. -/
def slot (q : SpscQueue α) (counter : UInt64) : ℕ := (counter &&& q.mask).toNat

def read (q : SpscQueue α) (counter : UInt64) : α := q.buffer.getD (q.slot counter) default

def write (q : SpscQueue α) (counter : UInt64) (x : α) : SpscQueue α :=
  { q with buffer := q.buffer.set (q.slot counter) x }

def push (q : SpscQueue α) (item : α) : Bool × SpscQueue α :=
  let currentTail := q.tail
  let currentHead := q.head
  if currentTail - currentHead ≥ q.capacity then (false, q)
  else (true, { q.write currentTail item with tail := currentTail + 1 })

/-! What a move leaves behind in the object it moves from is `moved`. -/

variable (moved : α → α)

/-- `push(T&&)`, with what is left in the object that was passed. -/
def pushMove (q : SpscQueue α) (item : α) : Bool × α × SpscQueue α :=
  let currentTail := q.tail
  let currentHead := q.head
  if currentTail - currentHead ≥ q.capacity then (false, item, q)
  else (true, moved item, { q.write currentTail item with tail := currentTail + 1 })

def pop (q : SpscQueue α) (outItem : α) : Bool × α × SpscQueue α :=
  let currentHead := q.head
  let currentTail := q.tail
  if currentHead = currentTail then (false, outItem, q)
  else
    let item := q.read currentHead
    (true, item, { q.write currentHead (moved item) with head := currentHead + 1 })

/-- The state of the loop of `popBatch`. -/
structure Batch (α : Type) where
  i : UInt64
  queue : SpscQueue α
  outItems : List α

/-- One pass of the loop. -/
def batchStep (currentHead count : UInt64) (s : Batch α) : Option (Batch α) :=
  if s.i < count then
    let item := s.queue.read (currentHead + s.i)
    some {
      i := s.i + 1
      queue := s.queue.write (currentHead + s.i) (moved item)
      outItems := s.outItems ++ [item] }
  else none

def popBatch (q : SpscQueue α) (outItems : List α) (maxItems : UInt64) :
    UInt64 × List α × SpscQueue α :=
  let currentHead := q.head
  let currentTail := q.tail
  let available := currentTail - currentHead
  if available = 0 then (0, outItems, q)
  else
    let count := if available < maxItems then available else maxItems
    let s := loop (batchStep moved currentHead count) count.toNat ⟨0, q, outItems⟩
    (count, s.outItems, { s.queue with head := currentHead + count })

def empty (q : SpscQueue α) : Bool := q.head = q.tail

def call (q : SpscQueue α) : QueueCall α → QueueReply α × SpscQueue α
  | .push item =>
    let (ok, q) := q.push item
    (.push ok item, q)
  | .pushMove item =>
    let (ok, item, q) := q.pushMove moved item
    (.push ok item, q)
  | .pop outItem =>
    let (ok, outItem, q) := q.pop moved outItem
    (.pop ok outItem, q)
  | .popBatch outItems maxItems =>
    let (count, outItems, q) := q.popBatch moved outItems maxItems
    (.popBatch count outItems, q)
  | .empty => (.empty q.empty, q)

end SpscQueue

/-- The same calls on a first-in first-out queue; a batch pops one item at a time. -/
def fifoCall {α : Type} {n : ℕ} (moved : α → α) (f : Fifo α n) :
    QueueCall α → QueueReply α × Fifo α n
  | .push item =>
    match f.push item with
    | none => (.push false item, f)
    | some f' => (.push true item, f')
  | .pushMove item =>
    match f.push item with
    | none => (.push false item, f)
    | some f' => (.push true (moved item), f')
  | .pop outItem =>
    match f.pop with
    | none => (.pop false outItem, f)
    | some (x, f') => (.pop true x, f')
  | .popBatch outItems maxItems =>
    let (count, outItems, f') := Fifo.popUpTo maxItems.toNat outItems f
    (.popBatch (.ofNat count) outItems, f')
  | .empty => (.empty (f.items = []), f)

theorem SpscQueue.pushMove_eq {α : Type} (moved : α → α) (q : SpscQueue α) (x : α) :
    q.pushMove moved x = ((q.push x).1, if (q.push x).1 then moved x else x, (q.push x).2) := by
  unfold pushMove push
  by_cases hfull : q.tail - q.head ≥ q.capacity
  · dsimp only
    rw [if_pos hfull, if_pos hfull]
    rfl
  · dsimp only
    rw [if_neg hfull, if_neg hfull]
    rfl

/-! ### The queue holds what the queue of items holds -/

/-- The items stored, oldest first. -/
def SpscQueue.items {α : Type} [Inhabited α] (q : SpscQueue α) : List α :=
  window q.buffer q.head.toNat (q.tail - q.head).toNat

/-- The ring holds the items from `head_` on. -/
structure Holds {α : Type} [Inhabited α] {n : ℕ} (q : SpscQueue α) (f : Fifo α n) : Prop where
  power : ∃ e, e ≤ 63 ∧ n = 2 ^ e
  capacity : q.capacity.toNat = n
  mask : q.mask.toNat = n - 1
  buffer : q.buffer.length = n
  count : (q.tail - q.head).toNat = f.items.length
  items : window q.buffer q.head.toNat f.items.length = f.items

namespace Holds
variable {α : Type} [Inhabited α] {n : ℕ} {q : SpscQueue α} {f f' : Fifo α n} {x : α}

theorem dvd (h : Holds q f) : n ∣ 2 ^ 64 := by
  obtain ⟨e, he, rfl⟩ := h.power
  exact Nat.pow_dvd_pow 2 (by omega)

theorem le (h : Holds q f) : n ≤ 2 ^ 63 := by
  obtain ⟨e, he, rfl⟩ := h.power
  exact Nat.pow_le_pow_right (by decide) he

theorem items_eq (h : Holds q f) : q.items = f.items := by
  rw [SpscQueue.items, h.count, h.items]

theorem slot_eq (h : Holds q f) (c : UInt64) : q.slot c = c.toNat % n := by
  obtain ⟨e, he, rfl⟩ := h.power
  rw [SpscQueue.slot, ← toNat_and_mask (by omega) h.mask, UInt64.ofNat_toNat]

theorem tail_mod (h : Holds q f) : q.tail.toNat % n = (q.head.toNat + f.items.length) % n := by
  rw [← h.count, ← toNat_add_mod h.dvd, UInt64.add_comm, UInt64.sub_add_cancel]

/-- The queue is full, empty or in between as its counters say. -/
theorem full_iff (h : Holds q f) : q.tail - q.head ≥ q.capacity ↔ f.items.length = n := by
  have := f.bound
  rw [ge_iff_le, UInt64.le_iff_toNat_le, h.count, h.capacity]
  omega

theorem empty_iff (h : Holds q f) : q.head = q.tail ↔ f.items = [] := by
  rw [← List.length_eq_zero_iff, ← h.count]
  constructor
  · intro he
    rw [he, UInt64.sub_self]
    rfl
  · intro he
    have hz : q.tail - q.head = 0 := UInt64.toNat_inj.mp he
    rw [← UInt64.sub_add_cancel q.tail q.head, hz, UInt64.zero_add]

theorem push (h : Holds q f) (hlt : f.items.length < n) (hf : f'.items = f.items ++ [x]) :
    Holds { q.write q.tail x with tail := q.tail + 1 } f' := by
  have hlen : f'.items.length = f.items.length + 1 := by
    rw [hf, List.length_append]
    rfl
  refine ⟨h.power, h.capacity, h.mask, ?_, ?_, ?_⟩
  · exact (List.length_set ..).trans h.buffer
  · have hcount := h.count
    have hle := h.le
    rw [UInt64.toNat_sub] at hcount
    rw [hlen]
    show (q.tail + 1 - q.head).toNat = _
    rw [UInt64.toNat_sub, UInt64.toNat_add, UInt64.toNat_one]
    omega
  · show window (q.buffer.set (q.slot q.tail) x) q.head.toNat f'.items.length = _
    have hslot : q.slot q.tail = (q.head.toNat + f.items.length) % q.buffer.length := by
      rw [h.slot_eq, h.tail_mod, h.buffer]
    rw [hlen, hslot, window_push (h.buffer ▸ hlt), h.items, hf]

theorem read_head (h : Holds q f) (hf : f.items = x :: f'.items) : q.read q.head = x := by
  have hitems := h.items
  rw [hf, List.length_cons, window_cons] at hitems
  rw [SpscQueue.read, h.slot_eq, ← h.buffer]
  exact List.cons_eq_cons.mp hitems |>.1

theorem pop (h : Holds q f) (hf : f.items = x :: f'.items) (y : α) :
    Holds { q.write q.head y with head := q.head + 1 } f' := by
  have hlen : f.items.length = f'.items.length + 1 := by rw [hf, List.length_cons]
  have hbound := f.bound
  have hmod : (q.head + 1).toNat % q.buffer.length = (q.head.toNat + 1) % q.buffer.length := by
    rw [h.buffer]
    exact toNat_add_mod h.dvd q.head 1
  refine ⟨h.power, h.capacity, h.mask, ?_, ?_, ?_⟩
  · exact (List.length_set ..).trans h.buffer
  · have hcount := h.count
    have hle := h.le
    have hhead := q.head.toNat_lt
    rw [UInt64.toNat_sub] at hcount
    show (q.tail - (q.head + 1)).toNat = _
    rw [UInt64.toNat_sub, UInt64.toNat_add, UInt64.toNat_one]
    omega
  · have hitems := h.items
    rw [hf, List.length_cons, window_cons] at hitems
    have hslot : q.slot q.head = q.head.toNat % q.buffer.length := by rw [h.slot_eq, h.buffer]
    show window (q.buffer.set (q.slot q.head) y) (q.head + 1).toNat f'.items.length = _
    have hcongr : window (q.buffer.set (q.head.toNat % q.buffer.length) y) (q.head + 1).toNat
        f'.items.length = window (q.buffer.set (q.head.toNat % q.buffer.length) y)
          (q.head.toNat + 1) f'.items.length :=
      window_congr (by rw [List.length_set]; exact hmod)
    rw [hslot, hcongr, window_pop (by rw [h.buffer]; omega)]
    exact (List.cons_eq_cons.mp hitems).2

/-- What the loop of `popBatch` has moved out so far is what the queue has lost. -/
theorem batch (h : Holds q f) (moved : α → α) (outItems : List α) {count : UInt64}
    (hcount : count.toNat ≤ f.items.length) :
    let s := loop (SpscQueue.batchStep moved q.head count) count.toNat ⟨0, q, outItems⟩
    s.outItems = outItems ++ (f.popBatch count.toNat).1 ∧
      Holds { s.queue with head := q.head + count } (f.popBatch count.toNat).2 := by
  have hstart : Holds { q with head := q.head + 0 } (f.popBatch 0).2 := by
    have hrest : (f.popBatch 0).2 = f := Fifo.ext (Fifo.items_popBatch f 0)
    rw [hrest, UInt64.add_zero]
    exact h
  have hstep : ∀ s s' : SpscQueue.Batch α,
      s.i.toNat ≤ count.toNat ∧ s.outItems = outItems ++ f.items.take s.i.toNat ∧
        Holds { s.queue with head := q.head + s.i } (f.popBatch s.i.toNat).2 →
      SpscQueue.batchStep moved q.head count s = some s' →
      (s'.i.toNat ≤ count.toNat ∧ s'.outItems = outItems ++ f.items.take s'.i.toNat ∧
        Holds { s'.queue with head := q.head + s'.i } (f.popBatch s'.i.toNat).2) ∧
      count.toNat - s'.i.toNat < count.toNat - s.i.toNat := by
    rintro s s' ⟨-, hout, hholds⟩ hnext
    rw [SpscQueue.batchStep] at hnext
    split_ifs at hnext with hlt
    cases hnext
    have hlt' : s.i.toNat < count.toNat := UInt64.lt_iff_toNat_lt.mp hlt
    have hsucc : (s.i + 1).toNat = s.i.toNat + 1 := by
      have := count.toNat_lt
      rw [UInt64.toNat_add, UInt64.toNat_one]
      omega
    obtain ⟨x, hx⟩ : ∃ x, f.items[s.i.toNat]? = some x :=
      ⟨_, List.getElem?_eq_getElem (by omega)⟩
    have hcons : (f.popBatch s.i.toNat).2.items =
        x :: (f.popBatch (s.i.toNat + 1)).2.items := by
      rw [Fifo.items_popBatch, Fifo.items_popBatch, List.drop_eq_getElem?_toList_append, hx]
      rfl
    have hread : s.queue.read (q.head + s.i) = x := hholds.read_head hcons
    have hpop := hholds.pop hcons (moved x)
    dsimp only
    rw [hsucc, hread, hout, List.append_assoc, ← UInt64.add_assoc]
    refine ⟨⟨hlt', ?_, hpop⟩, by omega⟩
    rw [List.take_add_one, hx]
    rfl
  obtain ⟨⟨hle, hout, hholds⟩, hexit⟩ :=
    loop_rule (fun s : SpscQueue.Batch α => count.toNat - s.i.toNat) hstep (n := count.toNat)
      (s := ⟨0, q, outItems⟩) ⟨Nat.zero_le _, (List.append_nil outItems).symm, hstart⟩
      (Nat.sub_le _ _)
  generalize loop (SpscQueue.batchStep moved q.head count) count.toNat ⟨0, q, outItems⟩ = s at *
  have hi : s.i = count := by
    rw [SpscQueue.batchStep] at hexit
    split_ifs at hexit with hlt
    have hge : ¬ s.i.toNat < count.toNat := hlt
    exact UInt64.toNat_inj.mp (by omega)
  rw [hi] at hout hholds
  exact ⟨hout, hholds⟩

/-- A push is refused when the queue is full, and then leaves everything as it was. -/
theorem push_spec (h : Holds q f) (x : α) :
    (q.push x = (false, q) ∧ f.push x = none) ∨
    (q.push x = (true, { q.write q.tail x with tail := q.tail + 1 }) ∧
      ∃ f', f.push x = some f' ∧ Holds { q.write q.tail x with tail := q.tail + 1 } f') := by
  unfold SpscQueue.push
  by_cases hfull : f.items.length = n
  · exact .inl ⟨if_pos (h.full_iff.mpr hfull), Fifo.push_eq_none_iff.mpr hfull⟩
  · have hlt : f.items.length < n := lt_of_le_of_ne f.bound hfull
    obtain ⟨f', hf'⟩ := Option.ne_none_iff_exists'.mp (mt Fifo.push_eq_none_iff.mp hfull)
    refine .inr ⟨if_neg (mt h.full_iff.mp hfull), f', hf', ?_⟩
    exact h.push hlt (Fifo.push_eq_some_iff.mp hf').2

theorem call_push (h : Holds q f) (moved : α → α) {item : α} {c : QueueCall α}
    (hc : c = .push item ∨ c = .pushMove item) :
    (q.items.length = n ∧ q.call moved c = (.push false item, q)) ∨
    (q.items.length ≠ n ∧ ∃ x q', q.call moved c = (.push true x, q')) := by
  rw [h.items_eq]
  rcases h.push_spec item with ⟨hpush, hf⟩ | ⟨hpush, f', hf, -⟩
  · refine .inl ⟨Fifo.push_eq_none_iff.mp hf, ?_⟩
    rcases hc with rfl | rfl
    · dsimp only [SpscQueue.call]
      rw [hpush]
    · dsimp only [SpscQueue.call]
      rw [SpscQueue.pushMove_eq, hpush]
      rfl
  · refine .inr ⟨fun hfull => ?_, ?_⟩
    · rw [Fifo.push_eq_none_iff.mpr hfull] at hf
      cases hf
    · rcases hc with rfl | rfl
      · dsimp only [SpscQueue.call]
        rw [hpush]
        exact ⟨_, _, rfl⟩
      · dsimp only [SpscQueue.call]
        rw [SpscQueue.pushMove_eq, hpush]
        exact ⟨_, _, rfl⟩

theorem popBatch_spec (h : Holds q f) (moved : α → α) (outItems : List α) (maxItems : UInt64) :
    let r := Fifo.popUpTo maxItems.toNat outItems f
    (q.popBatch moved outItems maxItems).1 = .ofNat r.1 ∧
      (q.popBatch moved outItems maxItems).2.1 = r.2.1 ∧
      Holds (q.popBatch moved outItems maxItems).2.2 r.2.2 := by
  rw [Fifo.popUpTo_eq]
  dsimp only
  have hcount := h.count
  unfold SpscQueue.popBatch
  dsimp only
  by_cases hz : q.tail - q.head = 0
  · have hnil : f.items = [] := by
      rw [← List.length_eq_zero_iff, ← hcount, hz]
      rfl
    have hrest : (f.popBatch maxItems.toNat).2 = f := by
      rw [Fifo.ext_iff, Fifo.items_popBatch, hnil, List.drop_nil]
    rw [if_pos hz, hnil, List.length_nil, Nat.min_zero, hrest]
    refine ⟨rfl, ?_, h⟩
    show outItems = outItems ++ f.items.take _
    rw [hnil, List.take_nil, List.append_nil]
  · rw [if_neg hz]
    obtain ⟨count, hc⟩ : ∃ count, count =
      if q.tail - q.head < maxItems then q.tail - q.head else maxItems := ⟨_, rfl⟩
    have hmin : count.toNat = min maxItems.toNat f.items.length := by
      rw [hc, ← hcount]
      split_ifs with hlt
      · exact (Nat.min_eq_right (UInt64.le_iff_toNat_le.mp (UInt64.le_of_lt hlt))).symm
      · exact (Nat.min_eq_left (UInt64.le_iff_toNat_le.mp (UInt64.not_lt.mp hlt))).symm
    have hbatch : f.popBatch count.toNat = f.popBatch maxItems.toNat := by
      rw [hmin, Fifo.popBatch_min]
    obtain ⟨hout, hholds⟩ := h.batch moved outItems (hmin.trans_le (Nat.min_le_right ..))
    rw [← hc, ← hmin, UInt64.ofNat_toNat, ← hbatch]
    exact ⟨rfl, hout, hholds⟩

/-- A call on the ring is the call on the items. -/
theorem call (h : Holds q f) (moved : α → α) (c : QueueCall α) :
    (q.call moved c).1 = (fifoCall moved f c).1 ∧
      Holds (q.call moved c).2 (fifoCall moved f c).2 := by
  cases c with
  | push item =>
    dsimp only [SpscQueue.call, fifoCall]
    rcases h.push_spec item with ⟨hpush, hf⟩ | ⟨hpush, f', hf, hholds⟩
    · rw [hpush, hf]
      exact ⟨rfl, h⟩
    · rw [hpush, hf]
      exact ⟨rfl, hholds⟩
  | pushMove item =>
    dsimp only [SpscQueue.call, fifoCall]
    rcases h.push_spec item with ⟨hpush, hf⟩ | ⟨hpush, f', hf, hholds⟩
    · rw [SpscQueue.pushMove_eq, hpush, hf]
      exact ⟨rfl, h⟩
    · rw [SpscQueue.pushMove_eq, hpush, hf]
      exact ⟨rfl, hholds⟩
  | pop outItem =>
    dsimp only [SpscQueue.call, fifoCall, SpscQueue.pop]
    cases hf : f.pop with
    | none =>
      rw [if_pos (h.empty_iff.mpr (Fifo.pop_eq_none_iff.mp hf))]
      exact ⟨rfl, h⟩
    | some p =>
      obtain ⟨x, f'⟩ := p
      have hcons := Fifo.pop_eq_some_iff.mp hf
      have hne : ¬ q.head = q.tail := fun he => by
        rw [h.empty_iff.mp he] at hcons
        cases hcons
      rw [if_neg hne, h.read_head hcons]
      exact ⟨rfl, h.pop hcons (moved x)⟩
  | popBatch outItems maxItems =>
    obtain ⟨hcount, hout, hholds⟩ := h.popBatch_spec moved outItems maxItems
    dsimp only [SpscQueue.call, fifoCall]
    rw [hcount, hout]
    exact ⟨rfl, hholds⟩
  | empty =>
    dsimp only [SpscQueue.call, fifoCall, SpscQueue.empty]
    exact ⟨congrArg QueueReply.empty (decide_eq_decide.mpr h.empty_iff), h⟩

/-- A new queue, wherever its counters start. -/
theorem start {val : UInt64} (hval : val.toNat ≤ 2 ^ 63) (counter : UInt64) {buffer : List α}
    (hbuffer : buffer.length = (roundUpPowerOfTwo val).toNat) :
    Holds
      { (SpscQueue.ctor val : SpscQueue α) with buffer := buffer, tail := counter, head := counter }
      (Fifo.empty : Fifo α (roundUpPowerOfTwo val).toNat) := by
  obtain ⟨e, he, hpow⟩ := roundUpPowerOfTwo_pow hval
  have hmask : (roundUpPowerOfTwo val - 1).toNat = (roundUpPowerOfTwo val).toNat - 1 :=
    hpow ▸ toNat_mask hpow
  refine ⟨⟨e, he, hpow⟩, rfl, hmask, hbuffer, ?_, rfl⟩
  show (counter - counter).toNat = 0
  rw [UInt64.sub_self]
  rfl

end Holds

/-- Wherever its counters start, a queue answers every sequence of calls as a first-in first-out
    queue of `capacity()` places does, and stores the same items. A push fails iff the queue is full,
    and then leaves both the queue and the item as they were. -/
theorem sequential_refines {α : Type} [Inhabited α] {val : UInt64} (hval : val.toNat ≤ 2 ^ 63)
    (moved : α → α) (counter : UInt64) {buffer : List α}
    (hbuffer : buffer.length = (roundUpPowerOfTwo val).toNat) (calls : List (QueueCall α)) :
    let q₀ : SpscQueue α :=
      { (SpscQueue.ctor val : SpscQueue α) with buffer := buffer, tail := counter, head := counter }
    let f₀ : Fifo α q₀.capacity.toNat := .empty
    List.Forall₂ (fun e f => e.call = f.call ∧ e.reply = f.reply ∧ e.after.items = f.after.items)
      (history (SpscQueue.call moved) q₀ calls) (history (fifoCall moved) f₀ calls) ∧
    ∀ e ∈ history (SpscQueue.call moved) q₀ calls, ∀ item,
      e.call = .push item ∨ e.call = .pushMove item →
        ((∃ x, e.reply = .push false x) ↔ e.before.items.length = q₀.capacity.toNat) ∧
        ((∃ x, e.reply = .push false x) → e.reply = .push false item ∧ e.after = e.before) := by
  intro q₀ f₀
  have hstart : Holds q₀ f₀ := Holds.start hval counter hbuffer
  have hrun : ∀ cs, List.Forall₂ (fun e f => e.call = f.call ∧ e.reply = f.reply ∧
      Holds e.before f.before ∧ Holds e.after f.after)
      (history (SpscQueue.call moved) q₀ cs) (history (fifoCall moved) f₀ cs) ∧
      Holds (final (SpscQueue.call moved) q₀ cs) (final (fifoCall moved) f₀ cs) := by
    intro cs
    refine history_related (C := Eq) (Q := Eq) (P := fun _ => True) (W := fun _ => True) ?_
      (List.forall₂_same.mpr fun _ _ => rfl) hstart (fun _ _ => trivial) fun _ _ => trivial
    rintro q f c _ hholds rfl - -
    exact hholds.call moved c
  refine ⟨(hrun calls).1.imp fun e f ⟨hcall, hreply, _, hafter⟩ =>
    ⟨hcall, hreply, hafter.items_eq⟩, ?_⟩
  intro e he item hpush
  obtain ⟨pre, post, -, hbefore, hstep⟩ := of_mem_history he
  have hholds := (hrun pre).2
  rw [← hbefore] at hholds
  rcases hholds.call_push moved hpush with ⟨hfull, hcall⟩ | ⟨hroom, x, q', hcall⟩
  · rw [hcall] at hstep
    obtain ⟨hreply, hafter⟩ := Prod.mk.inj hstep
    exact ⟨⟨fun _ => hfull, fun _ => ⟨item, hreply⟩⟩, fun _ => ⟨hreply, hafter⟩⟩
  · rw [hcall] at hstep
    obtain ⟨hreply, -⟩ := Prod.mk.inj hstep
    have hno : ¬ ∃ x, e.reply = .push false x := by
      rw [hreply]
      rintro ⟨_, ⟨⟩⟩
    exact ⟨⟨fun h => absurd h hno, fun h => absurd h hroom⟩, fun h => absurd h hno⟩

/-- Two slots, and counters that pass `2 ^ 64` in the middle of a batch. -/
theorem sequential_refines_wrap :
    let q₀ : SpscQueue ℕ := { (SpscQueue.ctor 2 : SpscQueue ℕ) with
      buffer := [7, 7], tail := 18446744073709551615, head := 18446744073709551615 }
    let calls : List (QueueCall ℕ) := [.push 1, .pushMove 2, .push 3, .popBatch [] 5, .empty]
    List.Forall₂ (fun e f => e.call = f.call ∧ e.reply = f.reply ∧ e.after.items = f.after.items)
      (history (SpscQueue.call fun _ => 0) q₀ calls)
      (history (fifoCall fun _ => 0) (Fifo.empty : Fifo ℕ q₀.capacity.toNat) calls) ∧
    (history (SpscQueue.call fun _ => 0) q₀ calls).map (·.reply) =
      [.push true 1, .push true 0, .push false 3, .popBatch 2 [1, 2], .empty true] :=
  ⟨(sequential_refines (by decide) (fun _ => 0) 18446744073709551615 (by decide) _).1, by decide⟩

end Sequential

end Titan
