import Titan.Queue.Refine

/-! No call waits for the other thread.

    Each call is over after a number of own accesses that is known when it begins, whatever the other
    thread does and whatever stores the loads read; and its next access is always possible. -/

namespace Titan
open Schemes

/-- The accesses that `push` still has to make, at most. -/
def Producer.remaining {α : Type} : Producer α → ℕ
  | .idle => 0
  | .loadTail _ => 4
  | .loadHead _ _ => 3
  | .writeSlot _ _ => 2
  | .storeTail _ _ => 1

/-- The accesses that `pop` or `pop_batch` still has to make, at most, where the queue has `cap`
    places. -/
def Consumer.remaining {α : Type} (cap : ℕ) : Consumer α → ℕ
  | .idle => 0
  | .loadHead req => 3 + min req.bound cap
  | .loadTail req _ => 2 + min req.bound cap
  | .readSlot _ count out => 1 + (count.toNat - out.length)
  | .storeHead _ _ _ => 1

namespace SpscQueue
variable {α : Type}

namespace Access

def isPush : Access α → Bool
  | .push _ => true
  | _ => false

def isRequest : Access α → Bool
  | .request _ => true
  | _ => false

/-- An access of the producer to the queue. -/
def isProducer : Access α → Bool
  | .producer _ => true
  | _ => false

/-- An access of the consumer to the queue. -/
def isConsumer : Access α → Bool
  | .consumer _ => true
  | _ => false

end Access

/-- The invariant of the queue, where the consumer knows of no write that was not made. -/
def Informed (e : ℕ) (q : SpscQueue α) : Prop :=
  ∃ log, Inv e q log ∧ ∀ k, q.writesSeen k ≤ q.writes k

namespace Informed
variable {e : ℕ} {q q' : SpscQueue α}

/-- A store to `tail_` releases no more than what was written. -/
theorem view_le {log : Traffic α} (hi : Inv e q log) {seen : ℕ} {store : Store}
    (hs : q.tails[seen]? = some store) (k : ℕ) : store.view k ≤ q.writes k := by
  rw [hi.memory.tails, List.getElem?_map] at hs
  obtain ⟨j, hj, rfl⟩ := Option.map_eq_some_iff.mp hs
  have hle : j ≤ log.pushed.length := by
    have hmem := List.mem_range.mp (List.mem_of_getElem? hj)
    omega
  have hwrites : q.writes k = laps (2 ^ e) k (q.written log).length := by
    rw [writes, hi.memory.slots, Nat.add_sub_cancel]
  have hwritten : log.pushed.length ≤ (q.written log).length := by
    rw [written, List.length_append]
    omega
  rw [hwrites]
  exact laps_mono _ _ (hle.trans hwritten)

/-- Each access of the producer brings the end of its call nearer. -/
theorem producer_remaining {seen : ℕ} (h : producerStep seen q = some q') :
    q'.producer.remaining < q.producer.remaining ∧ q'.consumer = q.consumer ∧
      q'.capacity = q.capacity ∧ q'.writesSeen = q.writesSeen ∧
      ∀ k, q.writes k ≤ q'.writes k := by
  unfold producerStep at h
  cases hq : q.producer with
  | idle =>
    rw [hq] at h
    cases h
  | loadTail item =>
    rw [hq] at h
    cases h
    exact ⟨by simp [Producer.remaining], rfl, rfl, rfl, fun _ => Nat.le_refl _⟩
  | loadHead item currentTail =>
    simp only [hq] at h
    cases hs : q.heads[seen]? with
    | none =>
      rw [hs] at h
      cases h
    | some store =>
      simp only [hs] at h
      split_ifs at h <;> cases h <;>
        exact ⟨by simp [Producer.remaining], rfl, rfl, rfl, fun _ => Nat.le_refl _⟩
  | writeSlot item currentTail =>
    rw [hq] at h
    cases h
    refine ⟨by simp [Producer.remaining], rfl, rfl, rfl, fun k => ?_⟩
    simp only [writes]
    refine Nat.sub_le_sub_right ?_ 1
    by_cases hk : k = q.slot currentTail
    · rw [hk, Function.update_self, List.length_append]
      omega
    · rw [Function.update_of_ne hk]
  | storeTail item currentTail =>
    rw [hq] at h
    cases h
    exact ⟨by simp [Producer.remaining], rfl, rfl, rfl, fun _ => Nat.le_refl _⟩

/-- Each access of the consumer brings the end of its call nearer. -/
theorem consumer_remaining {log : Traffic α} (hi : Inv e q log) {seen : ℕ}
    (h : consumerStep seen q = some q') :
    q'.consumer.remaining (2 ^ e) < q.consumer.remaining (2 ^ e) ∧ q'.producer = q.producer ∧
      q'.capacity = q.capacity ∧ q'.slots = q.slots ∧
      ∀ k, q'.writesSeen k ≤ max (q.writesSeen k) (q.writes k) := by
  have hi' := hi.consumerStep h
  unfold consumerStep at h
  cases hq : q.consumer with
  | idle =>
    rw [hq] at h
    cases h
  | loadHead req =>
    rw [hq] at h
    cases h
    exact ⟨by simp [Consumer.remaining], rfl, rfl, rfl, fun _ => le_max_left _ _⟩
  | loadTail req currentHead =>
    simp only [hq] at h
    cases hs : q.tails[seen]? with
    | none =>
      rw [hs] at h
      cases h
    | some store =>
      simp only [hs] at h
      have hview : ∀ k, max (q.writesSeen k) (store.view k) ≤ max (q.writesSeen k) (q.writes k) :=
        fun k => max_le_max_left _ (view_le hi hs k)
      split_ifs at h with hle hempty hzero
      · cases h
        exact ⟨by simp [Consumer.remaining], rfl, rfl, rfl, hview⟩
      · cases h
        refine ⟨?_, rfl, rfl, rfl, hview⟩
        have hpos := Nat.two_pow_pos e
        simp only [Consumer.remaining]
        omega
      · cases h
        refine ⟨?_, rfl, rfl, rfl, hview⟩
        -- a batch is no longer than what was asked for, and no longer than the queue
        have hbound := want_le_bound (store.value - currentHead) req
        have hcount : (want (store.value - currentHead) req).toNat ≤ 2 ^ e := by
          obtain ⟨-, -, hpub⟩ := hi'.consuming.counter
          have hseen := hi'.consuming.seen
          have hahead := hi'.written_le
          rw [written, List.length_append] at hahead
          omega
        simp only [Consumer.remaining, List.length_nil]
        omega
  | readSlot currentHead count out =>
    simp only [hq] at h
    have hcounter := hi.consuming.counter
    rw [hq] at hcounter
    obtain ⟨-, hmore, -⟩ := hcounter
    cases hs : (q.slots (q.slot (currentHead + UInt64.ofNat out.length)))[seen]? with
    | none =>
      rw [hs] at h
      cases h
    | some item =>
      simp only [hs] at h
      split_ifs at h with hle hlast
      · cases h
        refine ⟨?_, rfl, rfl, rfl, fun _ => le_max_left _ _⟩
        simp only [Consumer.remaining]
        omega
      · cases h
        refine ⟨?_, rfl, rfl, rfl, fun _ => le_max_left _ _⟩
        simp only [Consumer.remaining, List.length_append, List.length_singleton]
        omega
  | storeHead currentHead count out =>
    rw [hq] at h
    cases h
    exact ⟨by simp [Consumer.remaining], rfl, rfl, rfl, fun _ => le_max_left _ _⟩

theorem step {a : Access α} (h : Informed e q) (hstep : SpscQueue.step a q = some q') :
    Informed e q' := by
  obtain ⟨log, hi, hknown⟩ := h
  refine ⟨_, hi.step hstep, ?_⟩
  cases a with
  | push item =>
    rw [SpscQueue.step] at hstep
    split at hstep
    · cases hstep
      exact hknown
    · cases hstep
  | request req =>
    rw [SpscQueue.step] at hstep
    split at hstep
    · cases hstep
      exact hknown
    · cases hstep
  | producer seen =>
    obtain ⟨-, -, -, hseen, hwrites⟩ := producer_remaining hstep
    intro k
    rw [hseen]
    exact (hknown k).trans (hwrites k)
  | consumer seen =>
    obtain ⟨-, -, -, hslots, hseen⟩ := consumer_remaining hi hstep
    intro k
    have hwrites : q'.writes k = q.writes k := by
      rw [writes, writes, hslots]
    rw [hwrites]
    exact (hseen k).trans (max_le (hknown k) (Nat.le_refl _))

theorem of_trace [Inhabited α] {val : UInt64} (hval : val.toNat ≤ 2 ^ 63)
    {ms : List (Move (SpscQueue α) (Access α))}
    (h : Trace SpscQueue.step (SpscQueue.ctor val) ms q) : ∃ e, Informed e q := by
  obtain ⟨e, hctor⟩ := Inv.ctor (α := α) hval
  refine ⟨e, h.invariant (P := fun _ => True) (fun _ _ _ hi hstep _ => step hi hstep)
    ⟨{}, hctor, fun _ => Nat.zero_le _⟩ fun _ _ => trivial⟩

/-- Within a call the producer can make its next access. -/
theorem producer_moves (h : Informed e q) (hq : q.producer ≠ .idle) :
    ∃ seen, (SpscQueue.step (.producer seen) q).isSome := by
  obtain ⟨log, hi, -⟩ := h
  refine ⟨q.headSeen, ?_⟩
  rw [SpscQueue.step, producerStep]
  cases hp : q.producer with
  | idle => exact absurd hp hq
  | loadTail item => rfl
  | loadHead item currentTail =>
    obtain ⟨h, hproducing⟩ := hi.producing
    have hstore : q.heads[q.headSeen]? = some (storeAt (2 ^ e) h) := by
      rw [hi.memory.heads, List.getElem?_map, hproducing.seen, Option.map_some]
    simp only [hstore, if_pos (Nat.le_refl _)]
    split_ifs <;> rfl
  | writeSlot item currentTail => rfl
  | storeTail item currentTail => rfl

/-- Within a call the consumer can make its next access. -/
theorem consumer_moves (h : Informed e q) (hq : q.consumer ≠ .idle) :
    ∃ seen, (SpscQueue.step (.consumer seen) q).isSome := by
  obtain ⟨log, hi, hknown⟩ := h
  cases hc : q.consumer with
  | idle => exact absurd hc hq
  | loadHead req =>
    refine ⟨0, ?_⟩
    rw [SpscQueue.step, consumerStep, hc]
    rfl
  | loadTail req currentHead =>
    refine ⟨q.tailSeen, ?_⟩
    have hstore : q.tails[q.tailSeen]? = some (storeAt (2 ^ e) q.tailSeen) := by
      have hseen := hi.consuming.seen
      rw [hi.memory.tails, List.getElem?_map, List.getElem?_range (by omega), Option.map_some]
    rw [SpscQueue.step, consumerStep, hc]
    simp only [hstore, if_pos (Nat.le_refl _)]
    split_ifs <;> rfl
  | readSlot currentHead count out =>
    obtain ⟨hnext, -, -, hwrites⟩ := hi.next_published hc
    set k := q.slot (currentHead + UInt64.ofNat out.length)
    refine ⟨q.writesSeen k, ?_⟩
    have hlt : q.writesSeen k < (q.slots k).length := by
      have hle := hknown k
      have hlength := hi.memory.slots k
      rw [writes] at hle
      omega
    have hitem : (q.slots k)[q.writesSeen k]? = some (q.slots k)[q.writesSeen k] :=
      List.getElem?_eq_getElem hlt
    rw [SpscQueue.step, consumerStep, hc]
    simp only [k, hitem, if_pos (Nat.le_refl _)]
    split_ifs <;> rfl
  | storeHead currentHead count out =>
    refine ⟨0, ?_⟩
    rw [SpscQueue.step, consumerStep, hc]
    rfl

/-- Unless a new call begins, the producer comes nearer to the end of its call, and the other thread
    does not change that. -/
theorem producer_step {a : Access α} (h : Informed e q) (hstep : SpscQueue.step a q = some q')
    (hno : a.isPush = false) :
    q'.producer.remaining + (if a.isProducer then 1 else 0) ≤ q.producer.remaining := by
  obtain ⟨log, hi, -⟩ := h
  cases a with
  | push item => cases hno
  | request req =>
    rw [SpscQueue.step] at hstep
    split at hstep
    · cases hstep
      exact Nat.le_refl _
    · cases hstep
  | producer seen => exact (producer_remaining hstep).1
  | consumer seen =>
    rw [(consumer_remaining hi hstep).2.1]
    exact Nat.le_refl _

theorem consumer_step {a : Access α} (h : Informed e q) (hstep : SpscQueue.step a q = some q')
    (hno : a.isRequest = false) :
    q'.consumer.remaining (2 ^ e) + (if a.isConsumer then 1 else 0) ≤
      q.consumer.remaining (2 ^ e) := by
  obtain ⟨log, hi, -⟩ := h
  cases a with
  | push item =>
    rw [SpscQueue.step] at hstep
    split at hstep
    · cases hstep
      exact Nat.le_refl _
    · cases hstep
  | request req => cases hno
  | producer seen =>
    rw [(producer_remaining hstep).2.1]
    exact Nat.le_refl _
  | consumer seen => exact (consumer_remaining hi hstep).1

end Informed

/-- The queue is wait-free. At every moment of every run of the two threads a thread that is within a
    call can make its next access, and the accesses that it will make until the call is over are
    bounded: four for `push`, and for `pop` and `pop_batch` three and one for each item, of which there
    are no more than asked for and no more than the queue holds. -/
theorem wait_free [Inhabited α] {val : UInt64} (hval : val.toNat ≤ 2 ^ 63)
    {ms : List (Move (SpscQueue α) (Access α))} {q : SpscQueue α}
    (h : Trace SpscQueue.step (SpscQueue.ctor val) ms q) :
    (q.producer ≠ .idle → ∃ seen, (step (.producer seen) q).isSome) ∧
    (q.consumer ≠ .idle → ∃ seen, (step (.consumer seen) q).isSome) ∧
    ∀ {ns : List (Move (SpscQueue α) (Access α))} {q' : SpscQueue α}, Trace step q ns q' →
      ((∀ m ∈ ns, m.choice.isPush = false) →
        ns.countP (·.choice.isProducer) + q'.producer.remaining ≤ q.producer.remaining) ∧
      ((∀ m ∈ ns, m.choice.isRequest = false) →
        ns.countP (·.choice.isConsumer) + q'.consumer.remaining q.capacity.toNat ≤
          q.consumer.remaining q.capacity.toNat) := by
  obtain ⟨e, hinformed⟩ := Informed.of_trace hval h
  refine ⟨hinformed.producer_moves, hinformed.consumer_moves, fun {ns q'} hns => ⟨?_, ?_⟩⟩
  · intro hno
    exact (hns.countP_le (I := Informed e) (P := fun m => m.choice.isPush = false) _
      (fun q => q.producer.remaining) (fun _ _ _ hs hstep hP => ⟨hs.step hstep, hs.producer_step hstep hP⟩)
      hinformed hno).2
  · intro hno
    have hcap : q.capacity.toNat = 2 ^ e := by
      obtain ⟨log, hi, -⟩ := hinformed
      exact hi.capacity
    rw [hcap]
    exact (hns.countP_le (I := Informed e) (P := fun m => m.choice.isRequest = false) _
      (fun q => q.consumer.remaining (2 ^ e))
      (fun _ _ _ hs hstep hP => ⟨hs.step hstep, hs.consumer_step hstep hP⟩) hinformed hno).2

/-- After the round trip the consumer has one access to make in its batch. -/
theorem wait_free_roundTrip :
    ∃ q : SpscQueue ℕ, play step (ctor 1) roundTrip = some q ∧
      (∃ seen, (step (.consumer seen) q).isSome) ∧
      ∀ {ns : List (Move (SpscQueue ℕ) (Access ℕ))} {q' : SpscQueue ℕ}, Trace step q ns q' →
        (∀ m ∈ ns, m.choice.isRequest = false) → ns.countP (·.choice.isConsumer) ≤ 1 := by
  have hplays : (play step (ctor 1) roundTrip).isSome := by decide
  have hremaining : (play step (ctor 1) roundTrip).map
      (fun q => q.consumer.remaining q.capacity.toNat) = some 1 := by decide
  obtain ⟨q, hq⟩ := Option.isSome_iff_exists.mp hplays
  rw [hq, Option.map_some, Option.some_inj] at hremaining
  have hne : q.consumer ≠ .idle := by
    intro hidle
    rw [hidle] at hremaining
    cases hremaining
  obtain ⟨-, hmoves, hcounts⟩ := wait_free (by decide) (Trace.of_play hq)
  refine ⟨q, hq, hmoves hne, fun {ns q'} hns hno => ?_⟩
  have hcount := (hcounts hns).2 hno
  omega

end SpscQueue

end Titan
