import Titan.Gateway.Feed

/-! How much can be under way.

    The network thread does not take the next line before its command is queued, and it drains at
    most a batch of responses at a time; so what the server holds between a line and its answer is
    bounded by the two queues and the two batches. -/

namespace Titan
open Schemes

/-- The batches are as small as they should be, and the counter tells how many commands are done. -/
structure Backlog {n : ℕ} (g : Gateway n) (log : Log) : Prop where
  delivering : (delivering g.network).length ≤ batchSize
  batch : g.matching.batch.length ≤ batchSize
  processed : g.processedOrders + UInt64.ofNat g.matching.pending.length =
    UInt64.ofNat log.executed.length

namespace Backlog
variable {n : ℕ} {g g' : Gateway n} {log : Log}

theorem delivering_drained {a : Answer} {rest : List Task} (h : Gateway.networkStep a g = some g')
    (hnet : g.network = .drainResponses :: rest) (hrest : Titan.delivering rest = []) :
    (Titan.delivering g'.network).length ≤ batchSize := by
  unfold Gateway.networkStep at h
  rw [hnet] at h
  cases a with
  | popped count =>
    dsimp only at h
    split_ifs at h with hcount
    cases h
    rw [delivering_append, delivering_deliver, hrest, List.append_nil, Fifo.popBatch, List.length_take]
    omega
  | _ => cases h

/-- The network thread takes at most a batch, and only when it has dealt with the last. -/
theorem delivering_networkStep {a : Answer} (h : Gateway.networkStep a g = some g')
    (ho : Orderly g.network) (hle : (Titan.delivering g.network).length ≤ batchSize) :
    (Titan.delivering g'.network).length ≤ batchSize := by
  have hmove : g.NetworkMove {} g' (g.recordNetwork {} a) := Gateway.networkStep_move h
  generalize g.recordNetwork {} a = log' at hmove
  cases hmove with
  | @quiet t new rest clients hnet ht hnew _ =>
    have hplain : ∀ x ∈ new, x.Plain := fun x hx => (hnew x hx).1
    rw [hnet, ← List.singleton_append, delivering_append, ht.2, List.nil_append] at hle
    rw [delivering_append, delivering_plain hplain]
    exact hle
  | opened _ | retried => exact hle
  | admitted hnet _ | pushed hnet _ =>
    rw [hnet] at hle
    exact hle
  | drained count hnet =>
    exact delivering_drained h hnet ((Gateway.orderly_rest ho hnet).2.2 trivial)
  | delivered hnet _ | dropped hnet _ =>
    rw [hnet, Titan.delivering, List.length_cons] at hle
    simp only [Titan.delivering]
    omega

/-- The matching thread takes at most a batch, and it counts each command when its response is
    pushed. -/
theorem matchingStep {popped : ℕ} (hb : Backlog g log) (h : Gateway.matchingStep popped g = some g') :
    g'.network = g.network ∧ g'.matching.batch.length ≤ batchSize ∧
      g'.processedOrders + UInt64.ofNat g'.matching.pending.length =
        UInt64.ofNat (g.recordMatching log).executed.length := by
  have hone : ∀ k : ℕ, UInt64.ofNat (k + 1) = UInt64.ofNat k + 1 := fun k => UInt64.ofNat_add k 1
  obtain ⟨-, hbatch, hprocessed⟩ := hb
  unfold Gateway.matchingStep at h
  split at h
  case h_1 _ hm =>
    rw [hm] at hbatch hprocessed
    simp only [Gateway.recordMatching, hm]
    cases h
    refine ⟨rfl, ?_, ?_⟩ <;> dsimp only <;> split_ifs
    · exact hbatch
    · exact hbatch
    · exact hprocessed
    · exact hprocessed
  case h_2 _ hm =>
    rw [hm] at hbatch hprocessed
    simp only [Gateway.recordMatching, hm]
    cases h
    refine ⟨rfl, ?_, ?_⟩ <;> dsimp only <;> split_ifs
    · exact hbatch
    · exact hbatch
    · exact hprocessed
    · exact hprocessed
  case h_3 _ hm =>
    rw [hm] at hbatch hprocessed
    simp only [Gateway.recordMatching, hm]
    dsimp only at h
    split_ifs at h with hcount hzero <;> cases h
    · exact ⟨rfl, hbatch, hprocessed⟩
    · refine ⟨rfl, ?_, hprocessed⟩
      rw [Matching.Thread.batch, Fifo.popBatch, List.length_take]
      omega
  case h_4 _ hm =>
    rw [hm] at hbatch hprocessed
    simp only [Gateway.recordMatching, hm]
    cases h
    exact ⟨rfl, hbatch, hprocessed⟩
  case h_5 _ msg batch hm =>
    rw [hm, Matching.Thread.batch, List.length_cons] at hbatch
    rw [hm] at hprocessed
    simp only [Gateway.recordMatching, hm]
    dsimp only at h
    have hdone : g.processedOrders = UInt64.ofNat log.executed.length := by
      rw [← hprocessed]
      exact (UInt64.add_zero _).symm
    rw [List.length_append, List.length_singleton, hone]
    split_ifs at h with hpayload <;> cases h
    · refine ⟨rfl, Nat.le_of_succ_le hbatch, ?_⟩
      rw [← hdone]
      exact UInt64.add_zero _
    · refine ⟨rfl, Nat.le_of_succ_le hbatch, ?_⟩
      rw [← hdone]
      rfl
  case h_6 _ resp batch hm =>
    rw [hm] at hbatch hprocessed
    simp only [Gateway.recordMatching, hm]
    cases hpush : g.responses.push resp with
    | none =>
      rw [hpush] at h
      cases h
      rw [hm]
      exact ⟨rfl, hbatch, hprocessed⟩
    | some responses =>
      rw [hpush] at h
      cases h
      refine ⟨rfl, hbatch, ?_⟩
      rw [← hprocessed]
      exact UInt64.add_zero _
  case h_7 => cases h

theorem executed_recordNetwork (g : Gateway n) (log : Log) (a : Answer) :
    (g.recordNetwork log a).executed = log.executed := by
  unfold Gateway.recordNetwork
  split
  case h_3 => split <;> rfl
  all_goals rfl

theorem processed_networkStep {a : Answer} (h : Gateway.networkStep a g = some g') :
    g'.processedOrders = g.processedOrders ∧ g'.matching = g.matching := by
  have hmove : g.NetworkMove {} g' (g.recordNetwork {} a) := Gateway.networkStep_move h
  generalize g.recordNetwork {} a = log' at hmove
  cases hmove <;> exact ⟨rfl, rfl⟩

theorem move {a : Choice} (hb : Backlog g log) (ho : Orderly g.network)
    (h : Gateway.step a g = some g') : Backlog g' (log.record ⟨g, a, g'⟩) := by
  cases a with
  | stop =>
    cases h
    exact ⟨hb.delivering, hb.batch, hb.processed⟩
  | network a =>
    obtain ⟨hprocessed, hmatching⟩ := processed_networkStep h
    refine ⟨delivering_networkStep h ho hb.delivering, ?_, ?_⟩
    · rw [hmatching]
      exact hb.batch
    · rw [hmatching, hprocessed, Log.record, executed_recordNetwork]
      exact hb.processed
  | matching popped =>
    obtain ⟨hnet, hbatch, hprocessed⟩ := hb.matchingStep h
    refine ⟨?_, hbatch, hprocessed⟩
    rw [hnet]
    exact hb.delivering

theorem of_trace {queueCapacity : UInt64} {initial : PoolOrderBook} {serverFd : Fd}
    {ms : List (Move (Gateway _) Choice)} {g : Gateway _}
    (h : Trace Gateway.step (.start queueCapacity initial serverFd) ms g) :
    Backlog g (ms.foldl Log.record {}) := by
  refine (h.fold_invariant (I := fun g log => Tally initial g log ∧ Backlog g log)
    (P := fun _ => True) Log.record
    (fun _ _ _ _ hi hs _ => ⟨hi.1.move hs, hi.2.move hi.1.orderly hs⟩) ?_ fun _ _ => trivial).2
  exact ⟨.start .., Nat.zero_le _, Nat.zero_le _, rfl⟩

end Backlog

end Titan
