import Titan.Queue.SpscSafe
import Titan.Schemes.Fifo

/-! The lock-free queue is a bounded queue.

    A push that succeeds takes effect with its store to `tail_`, a batch with its store to `head_`;
    a call that finds the queue full or empty has no effect. In that order the calls are calls of a
    queue of `capacity()` places, whatever stores the loads read: all that a stale load does is to
    refuse a push that would fit or to shorten a batch. -/

namespace Titan
open Schemes

/-- A call on a bounded queue, with what it gave. -/
inductive QueueCall (α : Type) where
  | pushed (item : α)
  | refused (item : α)
  /-- `pop` asks for one item. -/
  | popped (maxItems : ℕ) (items : List α)
  deriving DecidableEq

/-- A bounded queue may refuse a push and may give less than it has, but in order. -/
def QueueCall.step {α : Type} {n : ℕ} [DecidableEq α] :
    QueueCall α → Fifo α n → Option (Fifo α n)
  | .pushed item, f => f.push item
  | .refused _, f => some f
  | .popped maxItems items, f =>
    if items.length ≤ maxItems ∧ items <+: f.items then some (f.popBatch items.length).2 else none

namespace Request

/-- How many items a request asks for. -/
def bound : Request → ℕ
  | .pop => 1
  | .popBatch maxItems => maxItems.toNat

end Request

/-- The calls that took effect, and how many items the consumer asks for. -/
structure Calls (α : Type) where
  done : List (QueueCall α) := []
  asked : ℕ := 0

/-- What a move completes. -/
def Calls.record {α : Type} (c : Calls α) (m : Move (SpscQueue α) (SpscQueue.Access α)) : Calls α :=
  match m.choice, m.before.producer, m.after.producer, m.before.consumer, m.after.consumer with
  | .producer _, .storeTail item _, _, _, _ => { c with done := c.done ++ [.pushed item] }
  | .producer _, .loadHead item _, .idle, _, _ => { c with done := c.done ++ [.refused item] }
  | .request req, _, _, _, _ => { c with asked := req.bound }
  | .consumer _, _, _, .storeHead _ _ out, _ => { c with done := c.done ++ [.popped c.asked out] }
  | .consumer _, _, _, .loadTail _ _, .idle => { c with done := c.done ++ [.popped c.asked []] }
  | _, _, _, _, _ => c

namespace SpscQueue
variable {α : Type}

/-- What the consumer works on is within what it was asked for. -/
def WithinBound (asked : ℕ) : Consumer α → Prop
  | .idle => True
  | .loadHead req | .loadTail req _ => req.bound = asked
  | .readSlot _ count _ | .storeHead _ count _ => count.toNat ≤ asked

/-- The calls played on a bounded queue give what is pushed and not yet returned. -/
structure Plays [DecidableEq α] (e : ℕ) (q : SpscQueue α) (log : Traffic α) (calls : Calls α) :
    Prop where
  inv : Inv e q log
  within : WithinBound calls.asked q.consumer
  plays : ∃ f : Fifo α (2 ^ e), play QueueCall.step .empty calls.done = some f ∧
    f.items = log.pushed.drop log.returned.length

theorem want_le_bound (available : UInt64) : ∀ req, (want available req).toNat ≤ req.bound
  | .pop => le_rfl
  | .popBatch maxItems => by
    rw [want]
    split_ifs with hlt
    · exact (UInt64.lt_iff_toNat_lt.mp hlt).le
    · rfl

namespace Plays
variable [DecidableEq α] {e : ℕ} {q q' : SpscQueue α} {log : Traffic α} {calls : Calls α}

/-- A call that has no effect. -/
theorem nothing (h : Plays e q log calls) (hi : Inv e q' log) {call : QueueCall α}
    (hcall : ∀ f : Fifo α (2 ^ e), call.step f = some f)
    (hwithin : WithinBound calls.asked q'.consumer) :
    Plays e q' log { calls with done := calls.done ++ [call] } := by
  obtain ⟨f, hplay, hitems⟩ := h.plays
  refine ⟨hi, hwithin, f, ?_, hitems⟩
  rw [play_concat, hplay]
  exact hcall f

theorem pushed (h : Plays e q log calls) {item : α} {t : UInt64}
    (hq : q.producer = .storeTail item t) (hi : Inv e q' { log with pushed := log.pushed ++ [item] })
    (hconsumer : q'.consumer = q.consumer) :
    Plays e q' { log with pushed := log.pushed ++ [item] }
      { calls with done := calls.done ++ [.pushed item] } := by
  obtain ⟨f, hplay, hitems⟩ := h.plays
  -- the producer has seen a head that leaves room
  have hroom : f.items.length < 2 ^ e := by
    obtain ⟨p, hp⟩ := h.inv.producing
    have hcounter := hp.counter
    rw [hq] at hcounter
    obtain ⟨-, hfree⟩ := hcounter
    have hle := h.inv.release_le hp.seen
    have hahead := h.inv.returned_le_pushed
    rw [hitems, List.length_drop]
    omega
  have hbound : (f.items ++ [item]).length ≤ 2 ^ e := by
    rw [List.length_append, List.length_singleton]
    omega
  refine ⟨hi, hconsumer ▸ h.within, ⟨f.items ++ [item], hbound⟩, ?_, ?_⟩
  · rw [play_concat, hplay]
    exact Fifo.push_eq_some_iff.mpr ⟨hroom, rfl⟩
  · dsimp only
    rw [hitems, List.drop_append_of_le_length h.inv.returned_le_pushed]

theorem popped (h : Plays e q log calls) {p count : UInt64} {out : List α} {releases : List ℕ}
    (hq : q.consumer = .storeHead p count out)
    (hi : Inv e q' { log with returned := log.returned ++ out, releases := releases })
    (hconsumer : q'.consumer = .idle) :
    Plays e q' { log with returned := log.returned ++ out, releases := releases }
      { calls with done := calls.done ++ [.popped calls.asked out] } := by
  obtain ⟨f, hplay, hitems⟩ := h.plays
  have hout : out <+: f.items := by
    have htaken := h.inv.memory.taken
    rw [taken, hq, Consumer.out] at htaken
    obtain ⟨rest, hrest⟩ := htaken
    rw [hitems, ← hrest, List.append_assoc, List.drop_left]
    exact List.prefix_append ..
  have hlength : out.length ≤ calls.asked := by
    have hcounter := h.inv.consuming.counter
    have hwithin := h.within
    rw [hq] at hcounter hwithin
    exact hcounter.2.trans_le hwithin
  refine ⟨hi, by rw [hconsumer]; trivial, (f.popBatch out.length).2, ?_, ?_⟩
  · rw [play_concat, hplay]
    exact if_pos ⟨hlength, hout⟩
  · rw [Fifo.items_popBatch, hitems, List.drop_drop, List.length_append]

/-- A step of either thread that completes nothing. -/
theorem goes_on (h : Plays e q log calls) (hi : Inv e q' log)
    (hwithin : WithinBound calls.asked q'.consumer) : Plays e q' log calls :=
  ⟨hi, hwithin, h.plays⟩

theorem producer (h : Plays e q log calls) {seen : ℕ} (hstep : producerStep seen q = some q') :
    Plays e q' (log.record ⟨q, .producer seen, q'⟩) (calls.record ⟨q, .producer seen, q'⟩) := by
  have hi := h.inv.producerStep hstep
  have hwithin := h.within
  unfold producerStep at hstep
  cases hq : q.producer with
  | idle =>
    rw [hq] at hstep
    cases hstep
  | loadTail item =>
    rw [hq] at hstep
    cases hstep
    simp only [Traffic.record, Calls.record, hq] at hi ⊢
    exact h.goes_on hi hwithin
  | loadHead item t =>
    rw [hq] at hstep
    dsimp only at hstep
    cases hs : q.heads[seen]? with
    | none =>
      rw [hs] at hstep
      cases hstep
    | some store =>
      rw [hs] at hstep
      dsimp only at hstep
      split_ifs at hstep <;> cases hstep <;> simp only [Traffic.record, Calls.record, hq] at hi ⊢
      · exact h.nothing hi (fun _ => rfl) hwithin
      · exact h.goes_on hi hwithin
  | writeSlot item t =>
    rw [hq] at hstep
    cases hstep
    simp only [Traffic.record, Calls.record, hq] at hi ⊢
    exact h.goes_on hi hwithin
  | storeTail item t =>
    rw [hq] at hstep
    cases hstep
    simp only [Traffic.record, Calls.record, hq] at hi ⊢
    exact h.pushed hq hi rfl

theorem consumer (h : Plays e q log calls) {seen : ℕ} (hstep : consumerStep seen q = some q') :
    Plays e q' (log.record ⟨q, .consumer seen, q'⟩) (calls.record ⟨q, .consumer seen, q'⟩) := by
  have hi := h.inv.consumerStep hstep
  have hwithin := h.within
  unfold consumerStep at hstep
  cases hq : q.consumer with
  | idle =>
    rw [hq] at hstep
    cases hstep
  | loadHead req =>
    rw [hq] at hstep hwithin
    cases hstep
    simp only [Traffic.record, Calls.record, hq] at hi ⊢
    exact h.goes_on hi hwithin
  | loadTail req p =>
    rw [hq] at hstep hwithin
    dsimp only at hstep
    cases hs : q.tails[seen]? with
    | none =>
      rw [hs] at hstep
      cases hstep
    | some store =>
      rw [hs] at hstep
      dsimp only at hstep
      have hwant : (want (store.value - p) req).toNat ≤ calls.asked :=
        (want_le_bound _ req).trans_eq hwithin
      split_ifs at hstep <;> cases hstep <;> simp only [Traffic.record, Calls.record, hq] at hi ⊢
      · refine h.nothing hi (fun f => ?_) trivial
        rw [QueueCall.step, if_pos ⟨Nat.zero_le _, List.nil_prefix⟩]
        rfl
      · exact h.goes_on hi hwant
      · exact h.goes_on hi hwant
  | readSlot p count out =>
    rw [hq] at hstep hwithin
    dsimp only at hstep
    split at hstep
    · cases hstep
    · split_ifs at hstep <;> cases hstep <;>
        simp only [Traffic.record, Calls.record, hq] at hi ⊢ <;> exact h.goes_on hi hwithin
  | storeHead p count out =>
    rw [hq] at hstep
    cases hstep
    simp only [Traffic.record, Calls.record, hq] at hi ⊢
    exact h.popped hq hi rfl

theorem move (h : Plays e q log calls) {a : Access α} (hstep : SpscQueue.step a q = some q') :
    Plays e q' (log.record ⟨q, a, q'⟩) (calls.record ⟨q, a, q'⟩) := by
  cases a with
  | push item =>
    have hi := h.inv.step hstep
    rw [SpscQueue.step] at hstep
    split at hstep <;> cases hstep
    simp only [Traffic.record, Calls.record] at hi ⊢
    exact h.goes_on hi h.within
  | producer seen => exact h.producer hstep
  | request req =>
    have hi := h.inv.step hstep
    rw [SpscQueue.step] at hstep
    split at hstep <;> cases hstep
    exact ⟨hi, rfl, h.plays⟩
  | consumer seen => exact h.consumer hstep

end Plays

/-- Every run of the lock-free queue, whatever stores its loads read, completes calls that a bounded
    queue of `capacity()` places answers alike, one after the other in the order of their completion;
    what that queue holds is what was pushed and not yet returned. -/
theorem refines_fifo [Inhabited α] [DecidableEq α] {val : UInt64} (hval : val.toNat ≤ 2 ^ 63)
    {ms : List (Move (SpscQueue α) (Access α))} {q : SpscQueue α}
    (h : Trace SpscQueue.step (SpscQueue.ctor val) ms q) :
    ∃ f : Fifo α (roundUpPowerOfTwo val).toNat,
      play QueueCall.step .empty (ms.foldl Calls.record {}).done = some f ∧
      f.items = (ms.foldl Traffic.record {}).pushed.drop
        (ms.foldl Traffic.record {}).returned.length := by
  obtain ⟨e, hctor⟩ : ∃ e, Inv e (ctor val : SpscQueue α) {} := Inv.ctor hval
  have hcap : (roundUpPowerOfTwo val).toNat = 2 ^ e := hctor.capacity
  rw [hcap]
  let record : Traffic α × Calls α → Move (SpscQueue α) (Access α) → Traffic α × Calls α :=
    fun p m => (p.1.record m, p.2.record m)
  have hplays : Plays e q (ms.foldl record ({}, {})).1 (ms.foldl record ({}, {})).2 := by
    refine h.fold_invariant (I := fun q (p : Traffic α × Calls α) => Plays e q p.1 p.2)
      (P := fun _ => True) record (fun _ _ _ _ hp hstep _ => hp.move hstep) ?_ fun _ _ => trivial
    exact ⟨hctor, trivial, .empty, rfl, rfl⟩
  rw [List.foldl_hom₂ ms Prod.mk Traffic.record Calls.record record _ _ fun _ _ _ => rfl] at hplays
  exact hplays.plays

theorem refines_fifo_roundTrip :
    ∃ f : Fifo ℕ (roundUpPowerOfTwo 1).toNat,
      play QueueCall.step .empty [.pushed 7, .popped 1 [7], .pushed 8] = some f ∧
        f.items = [8] := by
  obtain ⟨q, hq⟩ := Option.isSome_iff_exists.mp
    (show (play SpscQueue.step (SpscQueue.ctor 1) roundTrip).isSome by decide)
  obtain ⟨f, hplay, hitems⟩ := refines_fifo (by decide) (Trace.of_play hq)
  have hdone : ((moves SpscQueue.step (SpscQueue.ctor 1) roundTrip).foldl Calls.record {}).done =
      [.pushed 7, .popped 1 [7], .pushed 8] := by decide
  rw [hdone] at hplay
  exact ⟨f, hplay, hitems.trans (by decide)⟩

end SpscQueue

end Titan
