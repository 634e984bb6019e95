import Titan.Queue.Spsc
import Titan.Schemes.Ring

/-! The queue under every interleaving and every stale load.

    Positions count pushes without wrapping. The log says where each thread is; the invariant says
    what the counters, the slots and the views are in terms of positions. -/

namespace Titan
open Schemes

/-- The item that is in its slot but not yet published. -/
def Producer.pending {α : Type} : Producer α → List α
  | .storeTail item _ => [item]
  | _ => []

/-- The items that are moved out but not yet returned. -/
def Consumer.out {α : Type} : Consumer α → List α
  | .readSlot _ _ out | .storeHead _ _ out => out
  | _ => []

namespace SpscQueue
variable {α : Type}

/-- All items written so far. -/
def written (q : SpscQueue α) (log : Traffic α) : List α := log.pushed ++ q.producer.pending

/-- All items moved out so far. -/
def taken (q : SpscQueue α) (log : Traffic α) : List α := log.returned ++ q.consumer.out

/-- A store to a counter at a position. -/
def storeAt (cap i : ℕ) : Store := ⟨UInt64.ofNat i, fun k => laps cap k i⟩

/-- Counters and slots are what the positions say. -/
structure Memory (cap : ℕ) (q : SpscQueue α) (log : Traffic α) : Prop where
  tails : q.tails = (List.range (log.pushed.length + 1)).map (storeAt cap)
  heads : q.heads = log.releases.map (storeAt cap)
  sorted : log.releases.Pairwise (· ≤ ·)
  released : log.releases.getLast? = some log.returned.length
  bounded : ∀ h ∈ log.releases, h ≤ log.returned.length
  slots : ∀ k, (q.slots k).length = laps cap k (q.written log).length + 1
  content : ∀ i x, (q.written log)[i]? = some x →
    (q.slots (i % cap))[laps cap (i % cap) (i + 1)]? = some x
  reads : ∀ k, q.reads k = laps cap k (q.taken log).length
  taken : q.taken log <+: log.pushed

/-- The producer works on a position that is free as far as it knows. -/
structure Producing (cap : ℕ) (q : SpscQueue α) (log : Traffic α) (h : ℕ) : Prop where
  seen : log.releases[q.headSeen]? = some h
  room : log.pushed.length ≤ h + cap
  known : ∀ k, laps cap k h ≤ q.readsSeen k
  counter : match q.producer with
    | .idle | .loadTail _ => True
    | .loadHead _ currentTail => currentTail = UInt64.ofNat log.pushed.length
    | .writeSlot _ currentTail | .storeTail _ currentTail =>
      currentTail = UInt64.ofNat log.pushed.length ∧ log.pushed.length < h + cap

/-- The consumer works on positions that are published as far as it knows. -/
structure Consuming (cap : ℕ) (q : SpscQueue α) (log : Traffic α) : Prop where
  seen : q.tailSeen ≤ log.pushed.length
  behind : (q.taken log).length ≤ q.tailSeen
  known : ∀ k, laps cap k q.tailSeen ≤ q.writesSeen k
  counter : match q.consumer with
    | .idle | .loadHead _ => True
    | .loadTail _ currentHead => currentHead = UInt64.ofNat log.returned.length
    | .readSlot currentHead count out =>
      currentHead = UInt64.ofNat log.returned.length ∧ out.length < count.toNat ∧
        log.returned.length + count.toNat ≤ q.tailSeen
    | .storeHead currentHead count out =>
      currentHead = UInt64.ofNat log.returned.length ∧ out.length = count.toNat

/-- A step of the producer outside the slots and counters leaves the memory as it is. -/
theorem Memory.of_producer {cap : ℕ} {q : SpscQueue α} {log : Traffic α}
    (hm : Memory cap q log) {p : Producer α}
    (hp : p.pending = q.producer.pending) (headSeen : ℕ) (readsSeen : View) :
    Memory cap
      { q with producer := p, headSeen := headSeen, readsSeen := readsSeen } log := by
  have hw : written
      { q with producer := p, headSeen := headSeen, readsSeen := readsSeen } log =
      q.written log := by
    rw [written, written, hp]
  exact
    { hm with
      slots := by
        rw [hw]
        exact hm.slots,
      content := by
        rw [hw]
        exact hm.content }

theorem Consuming.of_producer {cap : ℕ} {q : SpscQueue α} {log : Traffic α}
    (hc : Consuming cap q log) (p : Producer α) (headSeen : ℕ) (readsSeen : View) :
    Consuming cap
      { q with producer := p, headSeen := headSeen, readsSeen := readsSeen } log :=
  ⟨hc.seen, hc.behind, hc.known, hc.counter⟩

/-- A request takes no more than there is. -/
theorem want_le {available : UInt64} (h : available ≠ 0) :
    ∀ req, (want available req).toNat ≤ available.toNat
  | .pop => by
    have hne : available.toNat ≠ 0 := by
      intro hz
      exact h (UInt64.toNat_inj.mp hz)
    have : (want available .pop).toNat = 1 := rfl
    omega
  | .popBatch maxItems => by
    rw [want]
    split_ifs with hlt
    · rfl
    · exact Nat.le_of_not_lt hlt

theorem taken_congr {q : SpscQueue α} {log : Traffic α} {c : Consumer α}
    (hc : c.out = q.consumer.out) (tailSeen : ℕ) (writesSeen : View) :
    taken { q with consumer := c, tailSeen := tailSeen, writesSeen := writesSeen } log =
      q.taken log := by
  rw [taken, taken, hc]

/-- A step of the consumer that moves nothing out leaves the memory as it is. -/
theorem Memory.of_consumer {cap : ℕ} {q : SpscQueue α} {log : Traffic α}
    (hm : Memory cap q log) {c : Consumer α} (hc : c.out = q.consumer.out) (tailSeen : ℕ)
    (writesSeen : View) :
    Memory cap
      { q with consumer := c, tailSeen := tailSeen, writesSeen := writesSeen } log :=
  { hm with
    reads := by
      rw [taken_congr hc]
      exact hm.reads,
    taken := by
      rw [taken_congr hc]
      exact hm.taken }

theorem Producing.of_consumer {cap h : ℕ} {q : SpscQueue α} {log : Traffic α}
    (hp : Producing cap q log h) (c : Consumer α) (tailSeen : ℕ) (writesSeen : View) :
    Producing cap
      { q with consumer := c, tailSeen := tailSeen, writesSeen := writesSeen } log h :=
  ⟨hp.seen, hp.room, hp.known, hp.counter⟩

/-- The invariant of the queue. -/
structure Inv (e : ℕ) (q : SpscQueue α) (log : Traffic α) : Prop where
  bits : e ≤ 63
  capacity : q.capacity.toNat = 2 ^ e
  mask : q.mask.toNat = 2 ^ e - 1
  memory : Memory (2 ^ e) q log
  producing : ∃ h, Producing (2 ^ e) q log h
  consuming : Consuming (2 ^ e) q log

namespace Inv
variable {e : ℕ} {q : SpscQueue α} {log : Traffic α}

theorem slot_eq (hi : Inv e q log) (i : ℕ) : q.slot (UInt64.ofNat i) = i % 2 ^ e :=
  toNat_and_mask (by have := hi.bits; omega) hi.mask i

theorem cap_lt (hi : Inv e q log) : 2 ^ e < 2 ^ 64 :=
  Nat.pow_lt_pow_right (by decide) (by have := hi.bits; omega)

theorem tail_eq (hi : Inv e q log) : q.tail = UInt64.ofNat log.pushed.length := by
  rw [tail, hi.memory.tails, List.range_succ, List.map_append, List.map_singleton,
    List.getLast?_concat]
  rfl

theorem head_eq (hi : Inv e q log) : q.head = UInt64.ofNat log.returned.length := by
  rw [head, hi.memory.heads, List.getLast?_map, hi.memory.released]
  rfl

theorem returned_le_taken : log.returned.length ≤ (q.taken log).length := by
  rw [taken, List.length_append]
  omega

/-- What the producer has read of the consumer is in the past of the consumer. -/
theorem release_le (hi : Inv e q log) {j h : ℕ} (hj : log.releases[j]? = some h) :
    h ≤ log.returned.length := hi.memory.bounded h (List.mem_of_getElem? hj)

/-- Nothing is written that is more than one round ahead of what is taken. -/
theorem written_le (hi : Inv e q log) : (q.written log).length ≤ log.returned.length + 2 ^ e := by
  obtain ⟨h, hp⟩ := hi.producing
  have hle := hi.release_le hp.seen
  have hroom := hp.room
  have hcounter := hp.counter
  rw [written, List.length_append]
  cases hq : q.producer with
  | storeTail item currentTail =>
    rw [hq] at hcounter
    rw [Producer.pending, List.length_singleton]
    have := hcounter.2
    omega
  | _ =>
    simp only [Producer.pending, List.length_nil]
    omega

/-! ### Steps of the producer -/

theorem push (hi : Inv e q log) (hq : q.producer = .idle) (item : α) :
    Inv e { q with producer := .loadTail item } log := by
  obtain ⟨h, hp⟩ := hi.producing
  exact
    { hi with
      memory := hi.memory.of_producer (by rw [hq]; rfl) _ _,
      producing := ⟨h, hp.seen, hp.room, hp.known, trivial⟩,
      consuming := hi.consuming.of_producer _ _ _ }

theorem loadOwnTail (hi : Inv e q log) {item : α} (hq : q.producer = .loadTail item) :
    Inv e { q with producer := .loadHead item q.tail } log := by
  obtain ⟨h, hp⟩ := hi.producing
  exact
    { hi with
      memory := hi.memory.of_producer (by rw [hq]; rfl) _ _,
      producing := ⟨h, hp.seen, hp.room, hp.known, hi.tail_eq⟩,
      consuming := hi.consuming.of_producer _ _ _ }

/-- The producer may read any store to `head_` from the last one on; none of them is behind. -/
theorem loadHead (hi : Inv e q log) {item : α} {t : UInt64} (hq : q.producer = .loadHead item t)
    {seen : ℕ} {store : Store} (hs : q.heads[seen]? = some store) (hle : q.headSeen ≤ seen)
    {p : Producer α}
    (hnext : (q.capacity ≤ t - store.value ∧ p = .idle) ∨
      (t - store.value < q.capacity ∧ p = .writeSlot item t)) :
    Inv e { q with
      producer := p, headSeen := seen,
      readsSeen := fun k => max (q.readsSeen k) (store.view k) } log := by
  obtain ⟨h, hp⟩ := hi.producing
  have hcounter := hp.counter
  rw [hq] at hcounter
  obtain rfl : t = UInt64.ofNat log.pushed.length := hcounter
  rw [hi.memory.heads, List.getElem?_map] at hs
  obtain ⟨h', hseen', rfl⟩ := Option.map_eq_some_iff.mp hs
  have hbehind : h ≤ h' := by
    rcases Nat.lt_or_eq_of_le hle with hlt | rfl
    · obtain ⟨hj, hj'⟩ := List.getElem?_eq_some_iff.mp hp.seen
      obtain ⟨hk, hk'⟩ := List.getElem?_eq_some_iff.mp hseen'
      have := List.pairwise_iff_getElem.mp hi.memory.sorted _ _ hj hk hlt
      omega
    · have := hp.seen.symm.trans hseen'
      cases this
      rfl
  have hpast : h' ≤ log.pushed.length := by
    have := hi.release_le hseen'
    have := hi.memory.taken.length_le
    have : log.returned.length ≤ (q.taken log).length := returned_le_taken
    omega
  have hroom : log.pushed.length ≤ h' + 2 ^ e := hp.room.trans (by omega)
  have hdist : (UInt64.ofNat log.pushed.length - UInt64.ofNat h').toNat =
      log.pushed.length - h' :=
    toNat_sub_ofNat hpast (by have := hi.cap_lt; omega)
  have hknown : ∀ k, laps (2 ^ e) k h' ≤
      max (q.readsSeen k) ((storeAt (2 ^ e) h').view k) := fun k => le_max_right _ _
  rcases hnext with ⟨-, rfl⟩ | ⟨hlt, rfl⟩
  · exact
      { hi with
        memory := hi.memory.of_producer (by rw [hq]; rfl) _ _,
        producing := ⟨h', hseen', hroom, hknown, trivial⟩,
        consuming := hi.consuming.of_producer _ _ _ }
  · have hfree : log.pushed.length < h' + 2 ^ e := by
      have hlt' : (UInt64.ofNat log.pushed.length - UInt64.ofNat h').toNat <
        q.capacity.toNat := hlt
      rw [hdist, hi.capacity] at hlt'
      omega
    exact
      { hi with
        memory := hi.memory.of_producer (by rw [hq]; rfl) _ _,
        producing := ⟨h', hseen', hroom, hknown, rfl, hfree⟩,
        consuming := hi.consuming.of_producer _ _ _ }

/-- Before a write, all that was in the slot has been moved out, and the producer knows it. -/
theorem next_free (hi : Inv e q log) {item : α} {t : UInt64}
    (hq : q.producer = .writeSlot item t) :
    q.writes (q.slot t) = q.reads (q.slot t) ∧
      q.reads (q.slot t) ≤ q.readsSeen (q.slot t) := by
  obtain ⟨h, hp⟩ := hi.producing
  have hcounter := hp.counter
  rw [hq] at hcounter
  obtain ⟨rfl, hfree⟩ := hcounter
  have hwritten : q.written log = log.pushed := by
    rw [written, hq]
    exact List.append_nil _
  have hreturned : h ≤ (q.taken log).length := (hi.release_le hp.seen).trans returned_le_taken
  have htaken := hi.memory.taken.length_le
  rw [hi.slot_eq, writes, hi.memory.slots, hi.memory.reads, hwritten, Nat.add_sub_cancel,
    laps_before htaken (by omega)]
  refine ⟨rfl, ?_⟩
  rw [← laps_before (hreturned.trans htaken) hfree]
  exact hp.known _

/-- The producer writes the next position; nothing that is not yet taken lies in its slot. -/
theorem writeSlot (hi : Inv e q log) {item : α} {t : UInt64}
    (hq : q.producer = .writeSlot item t) :
    Inv e { q with
      slots := Function.update q.slots (q.slot t) (q.slots (q.slot t) ++ [item]),
      producer := .storeTail item t } log := by
  obtain ⟨h, hp⟩ := hi.producing
  have hcounter := hp.counter
  rw [hq] at hcounter
  obtain ⟨rfl, hfree⟩ := hcounter
  have hold : q.written log = log.pushed := by
    rw [written, hq]
    exact List.append_nil _
  have hslots := hi.memory.slots
  have hcontent := hi.memory.content
  rw [hold] at hslots hcontent
  rw [hi.slot_eq]
  refine
    { hi with
      memory :=
        { hi.memory with
          slots := ?_,
          content := ?_ },
      producing := ⟨h, hp.seen, hp.room, hp.known, rfl, hfree⟩,
      consuming := ⟨hi.consuming.seen, hi.consuming.behind, hi.consuming.known,
        hi.consuming.counter⟩ }
  · intro k
    simp only [written, Producer.pending, List.length_append, List.length_singleton]
    by_cases hk : k = log.pushed.length % 2 ^ e
    · subst hk
      rw [Function.update_self, List.length_append, hslots, laps_succ_self]
      rfl
    · rw [Function.update_of_ne hk, hslots, laps_succ_of_ne (Ne.symm hk)]
  · intro i x hx
    simp only [written, Producer.pending] at hx ⊢
    rcases Nat.lt_or_ge i log.pushed.length with hlt | hge
    · rw [List.getElem?_append_left hlt] at hx
      have hin := hcontent i x hx
      by_cases hk : i % 2 ^ e = log.pushed.length % 2 ^ e
      · rw [hk] at hin ⊢
        rw [Function.update_self, List.getElem?_append_left (List.getElem?_eq_some_iff.mp hin).1]
        exact hin
      · rw [Function.update_of_ne hk]
        exact hin
    · obtain rfl : i = log.pushed.length := by
        have := (List.getElem?_eq_some_iff.mp hx).1
        rw [List.length_append, List.length_singleton] at this
        omega
      rw [List.getElem?_concat_length] at hx
      rw [Function.update_self, laps_succ_self, ← hslots, List.getElem?_concat_length]
      exact hx

/-- The position is published with all that was written before it. -/
theorem storeTail (hi : Inv e q log) {item : α} {t : UInt64}
    (hq : q.producer = .storeTail item t) :
    Inv e { q with tails := q.tails ++ [⟨t + 1, q.writes⟩], producer := .idle }
      { log with pushed := log.pushed ++ [item] } := by
  obtain ⟨h, hp⟩ := hi.producing
  have hcounter := hp.counter
  rw [hq] at hcounter
  obtain ⟨rfl, hfree⟩ := hcounter
  have hold : q.written log = log.pushed ++ [item] := by
    rw [written, hq]
    rfl
  have hslots := hi.memory.slots
  have hcontent := hi.memory.content
  rw [hold] at hslots hcontent
  have hnew : written
      { q with
        tails := q.tails ++ [⟨UInt64.ofNat log.pushed.length + 1, q.writes⟩],
        producer := .idle }
      { log with pushed := log.pushed ++ [item] } = log.pushed ++ [item] := List.append_nil _
  have hstore : (⟨UInt64.ofNat log.pushed.length + 1, q.writes⟩ : Store) =
      storeAt (2 ^ e) (log.pushed.length + 1) := by
    have hview : q.writes = fun k => laps (2 ^ e) k (log.pushed.length + 1) := by
      funext k
      rw [writes, hslots, List.length_append, List.length_singleton, Nat.add_sub_cancel]
    rw [storeAt, hview, UInt64.ofNat_add]
    rfl
  exact
    { hi with
      memory :=
        { hi.memory with
          tails := by
            rw [hstore, hi.memory.tails, List.length_append, List.length_singleton,
              List.range_succ (n := log.pushed.length + 1), List.map_append, List.map_singleton],
          slots := by
            rw [hnew]
            exact hslots,
          content := by
            rw [hnew]
            exact hcontent,
          taken := hi.memory.taken.trans (List.prefix_append _ _) },
      producing := ⟨h, hp.seen, by
        rw [List.length_append, List.length_singleton]
        omega, hp.known, trivial⟩,
      consuming :=
        { seen := hi.consuming.seen.trans (List.prefix_append _ _).length_le,
          behind := hi.consuming.behind,
          known := hi.consuming.known,
          counter := hi.consuming.counter } }

/-! ### Steps of the consumer -/

theorem request (hi : Inv e q log) (hq : q.consumer = .idle) (req : Request) :
    Inv e { q with consumer := .loadHead req } log := by
  obtain ⟨h, hp⟩ := hi.producing
  have hout : (Consumer.loadHead req : Consumer α).out = q.consumer.out := by
    rw [hq]
    rfl
  refine
    { hi with
      memory := hi.memory.of_consumer hout _ _,
      producing := ⟨h, hp.of_consumer _ _ _⟩,
      consuming := ⟨hi.consuming.seen, ?_, hi.consuming.known, trivial⟩ }
  rw [taken_congr hout]
  exact hi.consuming.behind

theorem loadOwnHead (hi : Inv e q log) {req : Request} (hq : q.consumer = .loadHead req) :
    Inv e { q with consumer := .loadTail req q.head } log := by
  obtain ⟨h, hp⟩ := hi.producing
  have hout : (Consumer.loadTail req q.head : Consumer α).out = q.consumer.out := by
    rw [hq]
    rfl
  refine
    { hi with
      memory := hi.memory.of_consumer hout _ _,
      producing := ⟨h, hp.of_consumer _ _ _⟩,
      consuming := ⟨hi.consuming.seen, ?_, hi.consuming.known, hi.head_eq⟩ }
  rw [taken_congr hout]
  exact hi.consuming.behind

/-- The consumer may read any store to `tail_` from the last one on; all up to it is published. -/
theorem loadTail (hi : Inv e q log) {req : Request} {p : UInt64}
    (hq : q.consumer = .loadTail req p) {seen : ℕ} {store : Store}
    (hs : q.tails[seen]? = some store) (hle : q.tailSeen ≤ seen) {c : Consumer α}
    (hnext : c = .idle ∨ (store.value - p ≠ 0 ∧ want (store.value - p) req = 0 ∧
        c = .storeHead p (want (store.value - p) req) []) ∨
      (store.value - p ≠ 0 ∧ want (store.value - p) req ≠ 0 ∧
        c = .readSlot p (want (store.value - p) req) [])) :
    Inv e { q with
      consumer := c, tailSeen := seen,
      writesSeen := fun k => max (q.writesSeen k) (store.view k) } log := by
  obtain ⟨h, hp⟩ := hi.producing
  have hcounter := hi.consuming.counter
  rw [hq] at hcounter
  obtain rfl : p = UInt64.ofNat log.returned.length := hcounter
  rw [hi.memory.tails, List.getElem?_map] at hs
  obtain ⟨j, hj, rfl⟩ := Option.map_eq_some_iff.mp hs
  obtain ⟨hseen, rfl⟩ : seen < log.pushed.length + 1 ∧ seen = j := by
    obtain ⟨hlt, hget⟩ := List.getElem?_eq_some_iff.mp hj
    rw [List.length_range] at hlt
    rw [List.getElem_range] at hget
    exact ⟨hlt, hget⟩
  have htaken : q.taken log = log.returned := by
    rw [taken, hq]
    exact List.append_nil _
  have hbehind : log.returned.length ≤ seen := by
    have := hi.consuming.behind
    rw [htaken] at this
    omega
  have hdist : (UInt64.ofNat seen - UInt64.ofNat log.returned.length).toNat =
      seen - log.returned.length := by
    refine toNat_sub_ofNat hbehind ?_
    have := hi.written_le
    have := hi.cap_lt
    rw [written, List.length_append] at *
    omega
  have hout : c.out = q.consumer.out := by
    rw [hq]
    rcases hnext with rfl | ⟨-, -, rfl⟩ | ⟨-, -, rfl⟩ <;> rfl
  refine
    { hi with
      memory := hi.memory.of_consumer hout _ _,
      producing := ⟨h, hp.of_consumer _ _ _⟩,
      consuming := ⟨Nat.le_of_lt_succ hseen, ?_, fun k => le_max_right _ _, ?_⟩ }
  · rw [taken_congr hout, htaken]
    exact hbehind
  · rcases hnext with rfl | ⟨-, hzero, rfl⟩ | ⟨hne, hpos, rfl⟩
    · trivial
    · refine ⟨rfl, ?_⟩
      rw [hzero]
      rfl
    · refine ⟨rfl, Nat.pos_of_ne_zero fun hz => hpos (UInt64.toNat_inj.mp hz), ?_⟩
      have hwant := want_le hne req
      have hdist' : (storeAt (2 ^ e) seen).value.toNat = (UInt64.ofNat seen).toNat := rfl
      change (want (UInt64.ofNat seen - UInt64.ofNat log.returned.length) req).toNat ≤
        (UInt64.ofNat seen - UInt64.ofNat log.returned.length).toNat at hwant
      rw [hdist] at hwant
      change log.returned.length +
        (want (UInt64.ofNat seen - UInt64.ofNat log.returned.length) req).toNat ≤ seen
      omega

/-- While a batch is read, its next position is published, and only its own write can be seen. -/
theorem next_published (hi : Inv e q log) {p count : UInt64} {out : List α}
    (hq : q.consumer = .readSlot p count out) :
    p + UInt64.ofNat out.length = UInt64.ofNat (q.taken log).length ∧
      (q.taken log).length < log.pushed.length ∧
      laps (2 ^ e) ((q.taken log).length % 2 ^ e) ((q.taken log).length + 1) ≤
        q.writesSeen ((q.taken log).length % 2 ^ e) ∧
      q.writes ((q.taken log).length % 2 ^ e) =
        laps (2 ^ e) ((q.taken log).length % 2 ^ e) ((q.taken log).length + 1) := by
  have hcounter := hi.consuming.counter
  rw [hq] at hcounter
  obtain ⟨rfl, hlt, hpub⟩ := hcounter
  have hlen : (q.taken log).length = log.returned.length + out.length := by
    rw [taken, hq, List.length_append]
    rfl
  have hseen := hi.consuming.seen
  have hahead := hi.written_le
  have hwritten : log.pushed.length ≤ (q.written log).length := by
    rw [written, List.length_append]
    omega
  refine ⟨?_, by omega, ?_, ?_⟩
  · rw [hlen, UInt64.ofNat_add]
  · exact (laps_mono _ _ (by omega)).trans (hi.consuming.known _)
  · rw [writes, hi.memory.slots, Nat.add_sub_cancel]
    exact laps_round (by omega) (by omega)

/-- Reading the next position moves out the item that was pushed there. -/
theorem readSlot (hi : Inv e q log) {p count : UInt64} {out : List α}
    (hq : q.consumer = .readSlot p count out) {seen : ℕ} {item : α}
    (hs : (q.slots (q.slot (p + UInt64.ofNat out.length)))[seen]? = some item)
    (hle : q.writesSeen (q.slot (p + UInt64.ofNat out.length)) ≤ seen) {c : Consumer α}
    (hnext : (UInt64.ofNat (out ++ [item]).length = count ∧
        c = .storeHead p count (out ++ [item])) ∨
      (UInt64.ofNat (out ++ [item]).length ≠ count ∧ c = .readSlot p count (out ++ [item]))) :
    Inv e { q with
      reads := Function.update q.reads (q.slot (p + UInt64.ofNat out.length))
        (q.reads (q.slot (p + UInt64.ofNat out.length)) + 1),
      consumer := c } log := by
  obtain ⟨hnextCounter, hlt, hknown, hwrites⟩ := hi.next_published hq
  rw [hnextCounter, hi.slot_eq] at hs hle ⊢
  have hcounter := hi.consuming.counter
  rw [hq] at hcounter
  obtain ⟨rfl, hmore, hpub⟩ := hcounter
  -- the last write to the slot is the only one that the consumer may see
  have hlast : seen = laps (2 ^ e) ((q.taken log).length % 2 ^ e) ((q.taken log).length + 1) := by
    have := (List.getElem?_eq_some_iff.mp hs).1
    rw [writes] at hwrites
    omega
  have hitem : log.pushed[(q.taken log).length]? = some item := by
    obtain ⟨x, hx⟩ : ∃ x, log.pushed[(q.taken log).length]? = some x :=
      ⟨_, List.getElem?_eq_getElem hlt⟩
    have hin := hi.memory.content _ x ((List.getElem?_append_left hlt).trans hx)
    rw [← hlast, hs] at hin
    rw [hx, ← hin]
  have hout : c.out = out ++ [item] := by
    rcases hnext with ⟨-, rfl⟩ | ⟨-, rfl⟩ <;> rfl
  have htaken : taken { q with
      reads := Function.update q.reads ((q.taken log).length % 2 ^ e)
        (q.reads ((q.taken log).length % 2 ^ e) + 1),
      consumer := c } log = q.taken log ++ [item] := by
    rw [taken, taken, hout, hq, ← List.append_assoc]
    rfl
  have hlen : (q.taken log ++ [item]).length = (q.taken log).length + 1 := List.length_append
  have hbase : (q.taken log).length = log.returned.length + out.length := by
    rw [taken, hq, List.length_append]
    rfl
  obtain ⟨h, hp⟩ := hi.producing
  refine
    { hi with
      memory :=
        { hi.memory with
          reads := ?_,
          taken := ?_ },
      producing := ⟨h, hp.seen, hp.room, hp.known, hp.counter⟩,
      consuming := ⟨hi.consuming.seen, ?_, hi.consuming.known, ?_⟩ }
  · intro k
    rw [htaken, hlen]
    dsimp only
    by_cases hk : k = (q.taken log).length % 2 ^ e
    · subst hk
      rw [Function.update_self, hi.memory.reads, laps_succ_self]
    · rw [Function.update_of_ne hk, hi.memory.reads, laps_succ_of_ne (Ne.symm hk)]
  · have hpre := List.concat_get_prefix hi.memory.taken hlt
    obtain ⟨_, hget⟩ := List.getElem?_eq_some_iff.mp hitem
    rw [htaken]
    rwa [List.get_eq_getElem, hget] at hpre
  · rw [htaken, hlen, hbase]
    dsimp only
    omega
  · have hone : (out ++ [item]).length = out.length + 1 := List.length_append
    have hofNat : (UInt64.ofNat (out ++ [item]).length).toNat = out.length + 1 := by
      rw [hone, UInt64.toNat_ofNat', Nat.mod_eq_of_lt]
      have := count.toNat_lt
      omega
    rcases hnext with ⟨rfl, rfl⟩ | ⟨hne, rfl⟩
    · exact ⟨rfl, hone.trans hofNat.symm⟩
    · refine ⟨rfl, ?_, hpub⟩
      have : (out ++ [item]).length ≠ count.toNat := by
        intro he
        apply hne
        rw [← UInt64.toNat_inj, hofNat, ← he, hone]
      omega

/-- What was moved out is released with the head. -/
theorem storeHead (hi : Inv e q log) {p count : UInt64} {out : List α}
    (hq : q.consumer = .storeHead p count out) :
    Inv e { q with heads := q.heads ++ [⟨p + count, q.reads⟩], consumer := .idle }
      { log with
        returned := log.returned ++ out,
        releases := log.releases ++ [(log.returned ++ out).length] } := by
  have hcounter := hi.consuming.counter
  rw [hq] at hcounter
  obtain ⟨rfl, hcount⟩ := hcounter
  have hold : q.taken log = log.returned ++ out := by
    rw [taken, hq]
    rfl
  have hnew : taken
      { q with
        heads := q.heads ++ [⟨UInt64.ofNat log.returned.length + count, q.reads⟩],
        consumer := .idle }
      { log with
        returned := log.returned ++ out,
        releases := log.releases ++ [(log.returned ++ out).length] } = q.taken log := by
    rw [hold]
    exact List.append_nil _
  have hstore : (⟨UInt64.ofNat log.returned.length + count, q.reads⟩ : Store) =
      storeAt (2 ^ e) (log.returned ++ out).length := by
    have hview : q.reads = fun k => laps (2 ^ e) k (log.returned ++ out).length := by
      funext k
      rw [hi.memory.reads, hold]
    rw [storeAt, hview, List.length_append, hcount, UInt64.ofNat_add, UInt64.ofNat_toNat]
  have hpast : ∀ j ∈ log.releases, j ≤ (log.returned ++ out).length := by
    intro j hj
    have := hi.memory.bounded j hj
    rw [List.length_append]
    omega
  obtain ⟨h, hp⟩ := hi.producing
  exact
    { hi with
      memory :=
        { hi.memory with
          heads := by
            rw [hstore, hi.memory.heads, List.map_append, List.map_singleton],
          sorted := List.pairwise_append.mpr ⟨hi.memory.sorted, List.pairwise_singleton _ _, by
            intro j hj j' hj'
            rw [List.mem_singleton.mp hj']
            exact hpast j hj⟩,
          released := List.getLast?_concat,
          bounded := by
            intro j hj
            rcases List.mem_append.mp hj with hj | hj
            · exact hpast j hj
            · exact (List.mem_singleton.mp hj).le,
          reads := by
            rw [hnew]
            exact hi.memory.reads,
          taken := by
            rw [hnew]
            exact hi.memory.taken },
      producing := ⟨h, by
        rw [List.getElem?_append_left (List.getElem?_eq_some_iff.mp hp.seen).1]
        exact hp.seen, hp.room, hp.known, hp.counter⟩,
      consuming :=
        { seen := hi.consuming.seen,
          behind := by
            rw [hnew]
            exact hi.consuming.behind,
          known := hi.consuming.known,
          counter := trivial } }

/-! ### All steps -/

/-- A new queue. -/
theorem ctor [Inhabited α] {val : UInt64} (h : val.toNat ≤ 2 ^ 63) :
    ∃ e, Inv e (SpscQueue.ctor val : SpscQueue α) {} := by
  obtain ⟨e, he, hpow⟩ := roundUpPowerOfTwo_pow h
  refine ⟨e, he, hpow, toNat_mask hpow, ?_, ⟨0, rfl, Nat.zero_le _, fun k => ?_, trivial⟩,
    ⟨le_rfl, le_rfl, fun k => ?_, trivial⟩⟩
  · have hstore : (⟨0, fun _ => 0⟩ : Store) = storeAt (2 ^ e) 0 := by
      rw [storeAt]
      simp only [laps_zero]
      rfl
    exact
      { tails := congrArg (fun s => [s]) hstore,
        heads := congrArg (fun s => [s]) hstore,
        sorted := List.pairwise_singleton _ _,
        released := rfl,
        bounded := by
          intro h hh
          exact (List.mem_singleton.mp hh).le,
        slots := by
          intro k
          change 1 = laps _ k 0 + 1
          rw [laps_zero],
        content := by
          intro i x hx
          exact (List.not_mem_nil (List.mem_of_getElem? hx)).elim,
        reads := by
          intro k
          change 0 = laps _ k 0
          rw [laps_zero],
        taken := List.prefix_rfl }
  · rw [laps_zero]
    exact Nat.zero_le _
  · change laps _ k 0 ≤ 0
    rw [laps_zero]

theorem producerStep (hi : Inv e q log) {seen : ℕ} {q' : SpscQueue α}
    (h : q.producerStep seen = some q') :
    Inv e q' (log.record ⟨q, .producer seen, q'⟩) := by
  cases hq : q.producer with
  | idle =>
    rw [SpscQueue.producerStep, hq] at h
    cases h
  | loadTail item =>
    rw [SpscQueue.producerStep, hq] at h
    cases h
    simp only [Traffic.record, hq]
    exact hi.loadOwnTail hq
  | loadHead item t =>
    simp only [SpscQueue.producerStep, hq] at h
    simp only [Traffic.record, hq]
    cases hs : q.heads[seen]? with
    | none =>
      rw [hs] at h
      cases h
    | some store =>
      simp only [hs] at h
      split_ifs at h with hle hfull
      · cases h
        exact hi.loadHead hq hs hle (Or.inl ⟨hfull, rfl⟩)
      · cases h
        exact hi.loadHead hq hs hle (Or.inr ⟨UInt64.not_le.mp hfull, rfl⟩)
  | writeSlot item t =>
    rw [SpscQueue.producerStep, hq] at h
    cases h
    simp only [Traffic.record, hq]
    exact hi.writeSlot hq
  | storeTail item t =>
    rw [SpscQueue.producerStep, hq] at h
    cases h
    simp only [Traffic.record, hq]
    exact hi.storeTail hq

theorem consumerStep (hi : Inv e q log) {seen : ℕ} {q' : SpscQueue α}
    (h : q.consumerStep seen = some q') :
    Inv e q' (log.record ⟨q, .consumer seen, q'⟩) := by
  cases hq : q.consumer with
  | idle =>
    rw [SpscQueue.consumerStep, hq] at h
    cases h
  | loadHead req =>
    rw [SpscQueue.consumerStep, hq] at h
    cases h
    simp only [Traffic.record, hq]
    exact hi.loadOwnHead hq
  | loadTail req p =>
    simp only [SpscQueue.consumerStep, hq] at h
    simp only [Traffic.record, hq]
    cases hs : q.tails[seen]? with
    | none =>
      rw [hs] at h
      cases h
    | some store =>
      simp only [hs] at h
      split_ifs at h with hle hempty hzero
      · cases h
        exact hi.loadTail hq hs hle (Or.inl rfl)
      · cases h
        exact hi.loadTail hq hs hle (Or.inr (Or.inl ⟨hempty, hzero, rfl⟩))
      · cases h
        exact hi.loadTail hq hs hle (Or.inr (Or.inr ⟨hempty, hzero, rfl⟩))
  | readSlot p count out =>
    simp only [SpscQueue.consumerStep, hq] at h
    simp only [Traffic.record, hq]
    cases hs : (q.slots (q.slot (p + UInt64.ofNat out.length)))[seen]? with
    | none =>
      rw [hs] at h
      cases h
    | some item =>
      simp only [hs] at h
      split_ifs at h with hle hlast
      · cases h
        exact hi.readSlot hq hs hle (Or.inl ⟨hlast, rfl⟩)
      · cases h
        exact hi.readSlot hq hs hle (Or.inr ⟨hlast, rfl⟩)
  | storeHead p count out =>
    rw [SpscQueue.consumerStep, hq] at h
    cases h
    simp only [Traffic.record, hq]
    exact hi.storeHead hq

theorem step (hi : Inv e q log) {a : Access α} {q' : SpscQueue α}
    (h : SpscQueue.step a q = some q') : Inv e q' (log.record ⟨q, a, q'⟩) := by
  cases a with
  | push item =>
    rw [SpscQueue.step] at h
    split at h
    · cases h
      rename_i hq
      exact hi.push hq item
    · cases h
  | producer seen => exact hi.producerStep h
  | request req =>
    rw [SpscQueue.step] at h
    split at h
    · cases h
      rename_i hq
      exact hi.request hq req
    · cases h
  | consumer seen => exact hi.consumerStep h

theorem returned_le_pushed (hi : Inv e q log) : log.returned.length ≤ log.pushed.length :=
  ((List.prefix_append _ _).trans hi.memory.taken).length_le

/-- The counters are as far apart as there are items in the queue. -/
theorem distance (hi : Inv e q log) :
    (q.tail - q.head).toNat = log.pushed.length - log.returned.length := by
  have hahead := hi.written_le
  have hcap := hi.cap_lt
  rw [written, List.length_append] at hahead
  rw [hi.tail_eq, hi.head_eq, toNat_sub_ofNat hi.returned_le_pushed (by omega)]

theorem distance_le (hi : Inv e q log) : q.tail - q.head ≤ q.capacity := by
  have hahead := hi.written_le
  have hpos := Nat.two_pow_pos e
  rw [written, List.length_append] at hahead
  rw [UInt64.le_iff_toNat_le, hi.distance, hi.capacity]
  omega

theorem of_trace [Inhabited α] {val : UInt64} (hval : val.toNat ≤ 2 ^ 63)
    {ms : List (Move (SpscQueue α) (Access α))} (h : Trace SpscQueue.step (SpscQueue.ctor val) ms q) :
    ∃ e, Inv e q (ms.foldl Traffic.record {}) := by
  obtain ⟨e, hctor⟩ := Inv.ctor (α := α) hval
  exact ⟨e, h.fold_invariant (I := Inv e) (P := fun _ => True) Traffic.record
    (fun _ _ _ _ hi hstep _ => hi.step hstep) hctor fun _ _ => trivial⟩

end Inv

/-- In every run of the two threads, whatever stores their loads read and however far the counters
    wrap, the items returned are a prefix of the items pushed, and so are those moved out by a batch
    that is not finished. A slot is only written when all its items were moved out, which the
    producer knows; a slot is only read after it was written, and only its newest write can be
    seen. The counters are never further apart than the capacity. -/
theorem returned_prefix_pushed [Inhabited α] {val : UInt64} (hval : val.toNat ≤ 2 ^ 63)
    {ms : List (Move (SpscQueue α) (Access α))} {q : SpscQueue α}
    (h : Trace SpscQueue.step (SpscQueue.ctor val) ms q) :
    (ms.foldl Traffic.record {}).returned <+: (ms.foldl Traffic.record {}).pushed ∧
      (ms.foldl Traffic.record {}).returned ++ q.consumer.out <+:
        (ms.foldl Traffic.record {}).pushed ∧
      (∀ item t, q.producer = .writeSlot item t →
        q.writes (q.slot t) = q.reads (q.slot t) ∧
          q.reads (q.slot t) ≤ q.readsSeen (q.slot t)) ∧
      (∀ p count out, q.consumer = .readSlot p count out →
        1 ≤ q.writes (q.slot (p + UInt64.ofNat out.length)) ∧
          q.writes (q.slot (p + UInt64.ofNat out.length)) ≤
            q.writesSeen (q.slot (p + UInt64.ofNat out.length))) ∧
      q.tail - q.head ≤ q.capacity := by
  obtain ⟨e, hi⟩ := Inv.of_trace hval h
  refine ⟨(List.prefix_append _ _).trans hi.memory.taken, hi.memory.taken, ?_, ?_, ?_⟩
  · intro item t hq
    exact hi.next_free hq
  · intro p count out hq
    obtain ⟨hnext, -, hknown, hwrites⟩ := hi.next_published hq
    rw [hnext, hi.slot_eq]
    refine ⟨?_, hwrites.le.trans hknown⟩
    rw [hwrites, laps_succ_self]
    omega
  · exact hi.distance_le

/-- Capacity 1: a push, a pop, a push into the slot that was freed, and a batch that reads it. -/
def roundTrip : List (Access ℕ) :=
  [.push 7, .producer 0, .producer 0, .producer 0, .producer 0,
    .request .pop, .consumer 0, .consumer 1, .consumer 1, .consumer 0,
    .push 8, .producer 0, .producer 1, .producer 0, .producer 0,
    .request (.popBatch 4), .consumer 0, .consumer 2, .consumer 2]

theorem returned_prefix_pushed_roundTrip :
    ∃ q, play SpscQueue.step (SpscQueue.ctor 1) roundTrip = some q ∧
      q.consumer.out = [8] ∧ [7] ++ q.consumer.out <+: [7, 8] ∧ q.tail - q.head ≤ q.capacity := by
  have hplays : (play SpscQueue.step (SpscQueue.ctor 1) roundTrip).isSome := by decide
  have hout : (play SpscQueue.step (SpscQueue.ctor 1) roundTrip).map (·.consumer.out) =
      some [8] := by decide
  have hpushed : ((moves SpscQueue.step (SpscQueue.ctor 1) roundTrip).foldl
      Traffic.record {}).pushed = [7, 8] := by decide
  have hreturned : ((moves SpscQueue.step (SpscQueue.ctor 1) roundTrip).foldl
      Traffic.record {}).returned = [7] := by decide
  obtain ⟨q, hq⟩ := Option.isSome_iff_exists.mp hplays
  rw [hq] at hout
  have hrun := returned_prefix_pushed (by decide) (Trace.of_play hq)
  rw [hpushed, hreturned] at hrun
  exact ⟨q, hq, Option.some_inj.mp hout, hrun.2.1, hrun.2.2.2.2⟩

end SpscQueue

end Titan
