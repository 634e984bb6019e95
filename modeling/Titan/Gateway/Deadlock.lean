import Titan.Gateway.Moves

/-! When the two threads wait for each other for ever.

    The network thread drains responses only between its other tasks, and while it retries the push
    of a command it drains nothing. If the matching thread needs more room for responses than there is
    before it pops commands again, neither thread can go on. -/

namespace Titan
open Schemes

namespace Gateway
variable {n : ℕ} {g g' : Gateway n}

/-- The network thread is retrying a push that fails. -/
def retriesIngress (g : Gateway n) : Bool :=
  match g.network with
  | .pushIngress msg :: _ => (g.ingress.push msg).isNone
  | _ => false

/-- The matching thread is retrying a push that fails. -/
def retriesResponse (g : Gateway n) : Bool :=
  match g.matching with
  | .respond resp _ => (g.responses.push resp).isNone
  | _ => false

/-- Both threads wait for room that only the other can make. -/
def Stuck (g : Gateway n) : Prop := g.retriesIngress ∧ g.retriesResponse

instance (g : Gateway n) : Decidable g.Stuck := inferInstanceAs (Decidable (_ ∧ _))

/-- Nothing leads out of a stuck state. -/
theorem Stuck.step {a : Choice} (h : g.Stuck) (hstep : step a g = some g') : g'.Stuck := by
  obtain ⟨hi, hr⟩ := h
  cases a with
  | stop =>
    cases hstep
    exact ⟨hi, hr⟩
  | network a =>
    suffices heq : g' = g by rw [heq]; exact ⟨hi, hr⟩
    rw [retriesIngress] at hi
    split at hi
    · rename_i msg rest hnet
      rw [Gateway.step] at hstep
      unfold networkStep at hstep
      rw [hnet] at hstep
      cases a with
      | none =>
        dsimp only at hstep
        rw [Option.isNone_iff_eq_none.mp hi] at hstep
        exact (Option.some.inj hstep).symm
      | _ => cases hstep
    · nomatch hi
  | matching popped =>
    suffices heq : g' = g by rw [heq]; exact ⟨hi, hr⟩
    rw [retriesResponse] at hr
    split at hr
    · rename_i resp batch hm
      rw [Gateway.step] at hstep
      unfold matchingStep at hstep
      rw [hm] at hstep
      dsimp only at hstep
      rw [Option.isNone_iff_eq_none.mp hr] at hstep
      exact (Option.some.inj hstep).symm
    · nomatch hr

/-- The responses that the matching thread may still push before it pops again. -/
def owed (g : Gateway n) : ℕ := g.matching.batch.length + g.matching.pending.length

/-- A command can be admitted without danger: it finds a place at once, or the matching thread finds
    places for all the responses that it owes. -/
def HasRoom (g : Gateway n) : Prop :=
  g.ingress.items.length < n ∨ g.responses.items.length + g.owed ≤ n

instance (g : Gateway n) : Decidable g.HasRoom := inferInstanceAs (Decidable (_ ∨ _))

/-- A choice that admits no command unless there is room. -/
def AdmitsWithRoom (g : Gateway n) : Choice → Prop
  | .network a => g.admits a ≠ [] → g.HasRoom
  | .stop | .matching _ => True

instance (g : Gateway n) : ∀ c, Decidable (g.AdmitsWithRoom c)
  | .network _ => inferInstanceAs (Decidable (_ → _))
  | .stop | .matching _ => inferInstanceAs (Decidable True)

/-- The matching thread moves what is under way towards the response queue, and makes it no more. -/
theorem MatchingMove.load_le {log log' : Log} (h : g.MatchingMove log g' log') :
    g'.responses.items.length + g'.owed + g'.ingress.items.length ≤
      g.responses.items.length + g.owed + g.ingress.items.length ∧
    (g'.ingress = g.ingress ∨ g'.ingress.items.length < n) := by
  cases h with
  | quiet hbatch hpending =>
    refine ⟨?_, .inl rfl⟩
    rw [owed, owed, hbatch, hpending]
  | popped count hm hpos hle =>
    have hbound := g.ingress.bound
    have htake : (g.ingress.popBatch count).1.length = min count g.ingress.items.length :=
      List.length_take
    have hdrop : (g.ingress.popBatch count).2.items.length = g.ingress.items.length - count :=
      List.length_drop
    refine ⟨?_, .inr ?_⟩
    · rw [owed, owed, hm]
      simp only [Matching.Thread.batch, Matching.Thread.pending, List.length_nil]
      omega
    · dsimp only
      omega
  | @executed msg batch thread processed hm hbatch hpending =>
    have hone : thread.pending.length ≤ 1 := by
      rw [hpending, IngressMessage.respond]
      split_ifs <;> simp
    have howed : g.owed = batch.length + 1 := by
      rw [owed, hm]
      rfl
    refine ⟨?_, .inl rfl⟩
    rw [howed, owed]
    dsimp only
    rw [hbatch]
    omega
  | retried => exact ⟨le_rfl, .inl rfl⟩
  | responded hm hpushed =>
    refine ⟨?_, .inl rfl⟩
    rw [owed, owed, hm]
    simp only [Matching.Thread.batch, Matching.Thread.pending, List.length_singleton]
    rw [(Fifo.push_eq_some_iff.mp hpushed).2, List.length_append, List.length_singleton,
      List.length_nil]
    omega

theorem MatchingMove.network_eq {log log' : Log} (h : g.MatchingMove log g' log') :
    g'.network = g.network := by
  cases h <;> rfl

theorem MatchingMove.clients_eq {log log' : Log} (h : g.MatchingMove log g' log') :
    g'.clients = g.clients := by
  cases h <;> rfl

theorem HasRoom.not_stuck (h : g.HasRoom) : ¬ g.Stuck := by
  rintro ⟨hi, hr⟩
  rw [retriesIngress] at hi
  rw [retriesResponse] at hr
  split at hi
  · split at hr
    · rename_i msg rest hnet resp batch hm
      have hfull := Fifo.push_eq_none_iff.mp (Option.isNone_iff_eq_none.mp hi)
      have hfull' := Fifo.push_eq_none_iff.mp (Option.isNone_iff_eq_none.mp hr)
      rcases h with h | h
      · omega
      · rw [owed, hm, Matching.Thread.pending, List.length_singleton] at h
        omega
    · cases hr
  · cases hi

end Gateway

/-- While a command waits to be pushed, there is room. -/
structure Safe {n : ℕ} (g : Gateway n) : Prop where
  orderly : Orderly g.network
  room : pushing g.network ≠ [] → g.HasRoom

namespace Safe
variable {n : ℕ} {g g' : Gateway n} {log log' : Log}

/-- The network thread makes no state unsafe unless it admits a command. -/
theorem network (h : Safe g) (hmove : g.NetworkMove log g' log')
    (hroom : log'.admitted ≠ log.admitted → g.HasRoom) : Safe g' := by
  refine ⟨hmove.orderly h.orderly, fun hpush => ?_⟩
  cases hmove with
  | @quiet t new rest clients hnet ht hnew _ =>
    have hsame : pushing (new ++ rest) = pushing g.network := by
      rw [hnet, ← List.singleton_append, pushing_append, pushing_append, ht.1,
        pushing_plain fun x hx => (hnew x hx).1]
    exact h.room (hsame ▸ hpush)
  | opened _ => exact h.room hpush
  | admitted _ _ => exact hroom (by simp)
  | retried => exact h.room hpush
  | pushed hnet _ => exact absurd (Gateway.orderly_rest h.orderly hnet).2.1 hpush
  | drained count hnet =>
    have hnone := (Gateway.orderly_rest h.orderly hnet).2.1
    rw [pushing_append, pushing_deliver, hnone] at hpush
    exact absurd rfl hpush
  | delivered hnet _ => exact absurd (Gateway.orderly_rest h.orderly hnet).2.1 hpush
  | dropped hnet _ => exact absurd (Gateway.orderly_rest h.orderly hnet).2.1 hpush

/-- The matching thread makes room, or what it owes becomes less by what it pushes. -/
theorem matching (h : Safe g) (hmove : g.MatchingMove log g' log') : Safe g' := by
  obtain ⟨hload, hingress⟩ := hmove.load_le
  have hnet := hmove.network_eq
  refine ⟨by rw [hnet]; exact h.orderly, fun hpush => ?_⟩
  rw [hnet] at hpush
  rcases hingress with hsame | hlt
  · refine (h.room hpush).imp (fun hlt => ?_) fun hr => ?_
    · rw [hsame]
      exact hlt
    · rw [hsame] at hload
      omega
  · exact .inl hlt

theorem not_stuck (h : Safe g) : ¬ g.Stuck := by
  intro hs
  refine (h.room ?_).not_stuck hs
  have hi := hs.1
  rw [Gateway.retriesIngress] at hi
  split at hi
  · rename_i msg rest hnet
    rw [hnet, pushing]
    exact List.cons_ne_nil _ _
  · cases hi

end Safe

/-- Once stuck, the gateway stays stuck. -/
theorem Gateway.Stuck.forever {n : ℕ} {g g' : Gateway n} {ms : List (Move (Gateway n) Choice)}
    (h : g.Stuck) (ht : Trace Gateway.step g ms g') : g'.Stuck :=
  ht.invariant (P := fun _ => True) (fun _ _ _ hs hstep _ => hs.step hstep) h fun _ _ => trivial

/-- A run never gets stuck if every command that it admits finds a place in the ingress queue, or
    places in the response queue for all that the matching thread owes before it pops again. -/
theorem never_stuck (queueCapacity : UInt64) (book : PoolOrderBook) (serverFd : Fd)
    {ms : List (Move (Gateway _) Choice)} {g : Gateway _}
    (h : Trace Gateway.step (.start queueCapacity book serverFd) ms g)
    (hroom : ∀ m ∈ ms, m.before.AdmitsWithRoom m.choice) : ¬ g.Stuck := by
  refine Safe.not_stuck (h.invariant (I := Safe) (fun g a g' hs hstep hP => ?_) ?_ hroom)
  · cases a with
    | stop =>
      cases hstep
      exact ⟨hs.orderly, hs.room⟩
    | network a =>
      have hmove : g.NetworkMove {} g' (g.recordNetwork {} a) := Gateway.networkStep_move hstep
      refine hs.network hmove fun hne => hP fun hnil => ?_
      rw [Gateway.admitted_recordNetwork, hnil] at hne
      exact hne (List.append_nil _)
    | matching popped =>
      have hmove : g.MatchingMove {} g' (g.recordMatching {}) := Gateway.matchingStep_move hstep
      exact hs.matching hmove
  · exact ⟨⟨trivial, rfl, fun _ => rfl⟩, fun hne => absurd rfl hne⟩

/-! ### Runs of one client -/

/-- A client connects and sends `bytes`, which the network thread reads. -/
def sends (bytes : Text) : List Choice :=
  [.network .none, .network (.popped 0), .network (.ready [{ fd := 3, readable := true }]),
   .network .none, .network (.accepted (some 5)), .network (.accepted none), .network (.popped 0),
   .network .none, .network (.popped 0), .network (.ready [{ fd := 5, readable := true }]),
   .network .none, .network .none, .network (.read (.data bytes)),
   .network (.read .wouldBlock)]

def clientSends (bytes : String) : List Choice := sends bytes.toList

/-- The network thread takes the next line up to its admission. -/
def nextLine : List Choice := [.network .none, .network (.clock 0 0)]

/-- The command is pushed and its line is erased. -/
def pushLine : List Choice := [.network .none, .network .none]

/-- The matching thread pops one command and executes it. -/
def executeOne : List Choice := [.matching 0, .matching 1, .matching 0]

/-- Two lines, executed as they come. -/
def calm : List Choice :=
  clientSends "FLUSH\nFLUSH\n" ++ nextLine ++ pushLine ++ executeOne ++ nextLine ++ pushLine

theorem calm_plays : (play Gateway.step (Gateway.start 1 (.ctor 1) 3) calm).isSome := by
  decide

theorem never_stuck_calm :
    ¬ ((play Gateway.step (Gateway.start 1 (.ctor 1) 3) calm).get calm_plays).Stuck :=
  never_stuck 1 (.ctor 1) 3 (.of_play (Option.some_get _).symm) (by decide)

/-- Four lines in one burst. The first response fills the response queue, the matching thread holds
    the second, the third command fills the ingress queue, and the fourth waits. -/
def burst : List Choice :=
  clientSends "FLUSH\nFLUSH\nFLUSH\nFLUSH\n" ++
  nextLine ++ pushLine ++ executeOne ++ [.matching 0, .matching 0] ++
  nextLine ++ pushLine ++ executeOne ++ nextLine ++ pushLine ++ nextLine

theorem burst_stuck : ∃ h : (play Gateway.step (Gateway.start 1 (.ctor 1) 3) burst).isSome,
    let g := (play Gateway.step (Gateway.start 1 (.ctor 1) 3) burst).get h
    g.running = true ∧ g.Stuck := by
  decide

/-- With queues of one slot, four commands in one burst wedge the gateway. -/
theorem gateway_deadlocks : ¬ ∀ (queueCapacity : UInt64) (book : PoolOrderBook) (serverFd : Fd)
    (ms : List (Move (Gateway _) Choice)) (g : Gateway _),
    Trace Gateway.step (.start queueCapacity book serverFd) ms g → g.running = true →
      ¬ g.Stuck := by
  intro h
  obtain ⟨hplays, hrunning, hstuck⟩ := burst_stuck
  exact h 1 (.ctor 1) 3 _ _ (.of_play (Option.some_get hplays).symm) hrunning hstuck

end Titan
