import Titan.Queue.SpscSafe

/-! What a third thread learns from `size()`.

    `size()` loads `head_`, then `tail_`, and the two threads of the queue move in between. A call is
    a run of theirs from the first load to the second. The answer is the number of items at some
    instant of that run unless a push comes after a pop in it, or `tail_` has wrapped. -/

namespace Titan
open Schemes

namespace SpscQueue
variable {α : Type}

/-- `size()`, from what its loads give. -/
def size (head tail : UInt64) : UInt64 := if tail ≥ head then tail - head else 0

/-- The move publishes an item. -/
def publishesPush (m : Move (SpscQueue α) (Access α)) : Bool :=
  match m.choice, m.before.producer with
  | .producer _, .storeTail _ _ => true
  | _, _ => false

/-- The move gives back the slots of items. -/
def publishesPop (m : Move (SpscQueue α) (Access α)) : Bool :=
  match m.choice, m.before.consumer with
  | .consumer _, .storeHead _ count _ => count ≠ 0
  | _, _ => false

/-- No push is published after a pop. -/
def Untorn (ms : List (Move (SpscQueue α) (Access α))) : Prop :=
  ms.Pairwise fun m m' => ¬ (publishesPop m ∧ publishesPush m')

theorem not_publishes_both (m : Move (SpscQueue α) (Access α)) :
    ¬ (publishesPop m ∧ publishesPush m) := by
  unfold publishesPop publishesPush
  cases m.choice <;> simp

theorem pushed_record (log : Traffic α) (m : Move (SpscQueue α) (Access α)) :
    (log.record m).pushed.length = log.pushed.length + (publishesPush m).toNat := by
  unfold Traffic.record publishesPush
  split
  · rename_i hc hp
    rw [hc, hp]
    exact List.length_append
  · rename_i hno hc hp
    rw [hc]
    rfl
  · rename_i hno _
    split
    · rename_i hc hp
      exact absurd hp (hno _ _ _ hc)
    · rfl

/-- The items that are returned with a store to `head_` are as many as it says. -/
theorem returned_record {e : ℕ} {log : Traffic α} {m : Move (SpscQueue α) (Access α)}
    (hi : Inv e m.before log) :
    log.returned.length ≤ (log.record m).returned.length ∧
      ((log.record m).returned.length = log.returned.length ↔ ¬ publishesPop m) := by
  unfold Traffic.record publishesPop
  split
  · rename_i hc hp
    rw [hc]
    exact ⟨le_rfl, by simp⟩
  · rename_i seen p count out hc hp
    have hcounter := hi.consuming.counter
    rw [hp] at hcounter
    have hzero : count ≠ 0 ↔ out.length ≠ 0 := by
      rw [hcounter.2, not_iff_not, ← UInt64.toNat_inj]
      rfl
    rw [hc, hp]
    simp [hzero]
  · rename_i hno
    refine ⟨le_rfl, iff_of_true rfl ?_⟩
    split
    · rename_i hc hp
      exact absurd hp (hno _ _ _ _ hc)
    · exact Bool.false_ne_true

/-- What a run of the two threads does to the counts of items. -/
structure Flow {e : ℕ} (q : SpscQueue α) (log log' : Traffic α)
    (ms : List (Move (SpscQueue α) (Access α))) : Prop where
  inv : Inv e q log'
  pushed : log.pushed.length ≤ log'.pushed.length
  pushed_iff : log'.pushed.length = log.pushed.length ↔ ∀ m ∈ ms, ¬ publishesPush m
  returned : log.returned.length ≤ log'.returned.length
  returned_iff : log'.returned.length = log.returned.length ↔ ∀ m ∈ ms, ¬ publishesPop m

theorem flow {e : ℕ} {q q' : SpscQueue α} {log : Traffic α}
    {ms : List (Move (SpscQueue α) (Access α))} (hi : Inv e q log) (h : Trace step q ms q') :
    Flow (e := e) q' log (ms.foldl Traffic.record log) ms := by
  induction h with
  | start => exact ⟨hi, le_rfl, by simp, le_rfl, by simp⟩
  | @move ms t u a _ hmove ih =>
    obtain ⟨hinv, hpushed, hpush, hreturned, hpop⟩ := ih
    have hrecord := pushed_record (ms.foldl Traffic.record log) ⟨t, a, u⟩
    obtain ⟨hle, hiff⟩ := returned_record (m := ⟨t, a, u⟩) hinv
    rw [List.foldl_append]
    refine ⟨hinv.step hmove, ?_, ?_, ?_, ?_⟩
    · show _ ≤ (Traffic.record _ _).pushed.length
      omega
    · rw [List.forall_mem_append, ← hpush, List.forall_mem_singleton]
      show (Traffic.record _ _).pushed.length = _ ↔ _
      rw [hrecord]
      cases publishesPush ⟨t, a, u⟩
      · simp
      · simp
        omega
    · show _ ≤ (Traffic.record _ _).returned.length
      omega
    · rw [List.forall_mem_append, ← hpop, List.forall_mem_singleton, ← hiff]
      show (Traffic.record _ _).returned.length = _ ↔ _
      omega

/-- Between the loads of `size()` no push is published after a pop, and what is loaded of `tail_` is
    not below what was loaded of `head_`; or it is, but the queue is empty at some instant. -/
def Steady (q₁ q₂ : SpscQueue α) (ws : List (Move (SpscQueue α) (Access α))) : Prop :=
  (q₁.head ≤ q₂.tail ∧ Untorn ws) ∨ (q₂.tail < q₁.head ∧ ∃ q ∈ states q₁ ws, q.tail = q.head)

section Call
variable {e : ℕ} {q₁ q₂ : SpscQueue α} {log : Traffic α}
  {ws : List (Move (SpscQueue α) (Access α))}

/-- There is an instant with all pushes of the call and none of its pops. -/
theorem exists_instant (hi : Inv e q₁ log) (h : Trace step q₁ ws q₂) (huntorn : Untorn ws) :
    ∃ q ∈ states q₁ ws, q.tail = q₂.tail ∧ q.head = q₁.head := by
  obtain ⟨as, bs, rfl, has, hbs⟩ := exists_cut (fun m _ => not_publishes_both m) huntorn
  obtain ⟨q, hq, hfirst, hsecond⟩ := h.split rfl
  have hf := flow hi hfirst
  have hs := flow hf.inv hsecond
  refine ⟨q, hq, ?_, ?_⟩
  · rw [hs.inv.tail_eq, hf.inv.tail_eq, hs.pushed_iff.mpr hbs]
  · rw [hf.inv.head_eq, hi.head_eq, hf.returned_iff.mpr has]

/-- Only then, unless the counters go all the way round in one call. -/
theorem untorn_of_instant (hi : Inv e q₁ log) (h : Trace step q₁ ws q₂)
    (hfew : (ws.foldl Traffic.record log).pushed.length < log.returned.length + 2 ^ 64)
    {q : SpscQueue α} (hq : q ∈ states q₁ ws) (hsame : q₂.tail - q₁.head = q.tail - q.head) :
    Untorn ws := by
  obtain ⟨as, bs, rfl, hfirst, hsecond⟩ := h.split_at hq
  have hf := flow hi hfirst
  have hs := flow hf.inv hsecond
  rw [List.foldl_append] at hfew
  have hle := hf.inv.returned_le_pushed
  have hpushed := hs.pushed
  have hreturned := hf.returned
  have hfar : (q₂.tail - q₁.head).toNat = ((bs.foldl Traffic.record (as.foldl Traffic.record
      log)).pushed.length) - log.returned.length := by
    rw [hs.inv.tail_eq, hi.head_eq, toNat_sub_ofNat (by omega) (by omega)]
  rw [hsame, hf.inv.distance] at hfar
  refine pairwise_of_cut (hf.returned_iff.mp ?_) (hs.pushed_iff.mp ?_)
  · omega
  · omega

end Call

/-- What a third thread is told by `size()`, whatever the two threads of the queue do meanwhile: the
    number of items at some instant of the call, if the call is steady; and only then, unless the
    counters go all the way round during the call. -/
theorem size_real [Inhabited α] {val : UInt64} (hval : val.toNat ≤ 2 ^ 63)
    {ms ws : List (Move (SpscQueue α) (Access α))} {q₁ q₂ : SpscQueue α}
    (h : Trace step (ctor val) ms q₁) (hcall : Trace step q₁ ws q₂) :
    let v := size q₁.head q₂.tail
    let before := ms.foldl Traffic.record {}
    let after := ws.foldl Traffic.record before
    (Steady q₁ q₂ ws → (∃ q ∈ states q₁ ws, v = q.tail - q.head) ∧ v ≤ q₁.capacity ∧
      (ws = [] → v.toNat = before.pushed.length - before.returned.length)) ∧
    (after.pushed.length < before.returned.length + 2 ^ 64 →
      (∃ q ∈ states q₁ ws, v = q.tail - q.head) → Steady q₁ q₂ ws) := by
  intro v before after
  obtain ⟨e, hi⟩ := Inv.of_trace hval h
  have hzero : q₂.tail < q₁.head → v = 0 := fun hlt => if_neg (UInt64.not_le.mpr hlt)
  have hdiff : q₁.head ≤ q₂.tail → v = q₂.tail - q₁.head := fun hle => if_pos hle
  refine ⟨fun hsteady => ?_, ?_⟩
  · have hreal : ∃ q ∈ states q₁ ws, v = q.tail - q.head := by
      rcases hsteady with ⟨hle, huntorn⟩ | ⟨hlt, q, hq, hempty⟩
      · obtain ⟨q, hq, htail, hhead⟩ := exists_instant hi hcall huntorn
        exact ⟨q, hq, by rw [hdiff hle, htail, hhead]⟩
      · exact ⟨q, hq, by rw [hzero hlt, hempty, UInt64.sub_self]⟩
    refine ⟨hreal, ?_, ?_⟩
    · obtain ⟨q, hq, hv⟩ := hreal
      obtain ⟨as, bs, -, hfirst, -⟩ := hcall.split_at hq
      have hf := flow hi hfirst
      have hcapacity : q.capacity = q₁.capacity :=
        UInt64.toNat_inj.mp (hf.inv.capacity.trans hi.capacity.symm)
      rw [hv, ← hcapacity]
      exact hf.inv.distance_le
    · rintro rfl
      obtain ⟨q, hq, hv⟩ := hreal
      rw [states, List.map_nil, List.mem_singleton] at hq
      rw [hv, hq, hi.distance]
  · rintro hfew ⟨q, hq, hv⟩
    rcases UInt64.lt_or_le q₂.tail q₁.head with hlt | hle
    · refine .inr ⟨hlt, q, hq, ?_⟩
      rw [hzero hlt] at hv
      rw [← UInt64.sub_add_cancel q.tail q.head, ← hv, UInt64.zero_add]
    · refine .inl ⟨hle, untorn_of_instant hi hcall hfew hq ?_⟩
      rw [← hv, hdiff hle]

/-- One slot, with an item in it. -/
def onePushed : SpscQueue ℕ := (play step (ctor 1) (roundTrip.take 5)).get (by decide)

theorem onePushed_run :
    Trace step (ctor 1) (moves step (ctor 1) (roundTrip.take 5)) onePushed :=
  .of_play (Option.some_get _).symm

/-- A pop between the loads does no harm. -/
theorem size_real_pop : ∃ q₂ : SpscQueue ℕ, ∃ ws, Trace step onePushed ws q₂ ∧ ws.length = 5 ∧
    ∃ q ∈ states onePushed ws, size onePushed.head q₂.tail = q.tail - q.head := by
  refine ⟨_, moves step onePushed ((roundTrip.drop 5).take 5),
    .of_play (Option.some_get (by decide)).symm, by decide, ?_⟩
  refine ((size_real (by decide) onePushed_run (.of_play (Option.some_get _).symm)).1
    (.inl ⟨by decide, ?_⟩)).1
  unfold Untorn
  decide

/-- A pop and then a push between the loads: one slot is said to hold two items. -/
theorem size_torn : ¬ ∀ (val : UInt64), val.toNat ≤ 2 ^ 63 →
    ∀ (ms ws : List (Move (SpscQueue ℕ) (Access ℕ))) (q₁ q₂ : SpscQueue ℕ),
      Trace step (ctor val) ms q₁ → Trace step q₁ ws q₂ →
        (∃ q ∈ states q₁ ws, size q₁.head q₂.tail = q.tail - q.head) ∧
          size q₁.head q₂.tail ≤ q₁.capacity := by
  intro h
  have htorn := h 1 (by decide) _ (moves step onePushed ((roundTrip.drop 5).take 10)) onePushed _
    onePushed_run (.of_play (Option.some_get (by decide)).symm)
  revert htorn
  decide

end SpscQueue

end Titan
