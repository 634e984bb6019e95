import Titan.Benchmark.Workload
import Titan.Engine.Effort

/-! The two harnesses that replay a workload: the differential test, which compares the engines after
    every action, and the benchmark, which warms an engine up and counts its trades.

    The engines agree along every replay that does not outgrow the slots of the pool, and the number of
    submissions bounds these. So the test passes on every workload, and what the benchmark counts
    depends neither on the engine nor on the warm-up. -/

namespace Titan
open Schemes PoolOrderBook

/-- The call of an action, with the vector of trades that it appends to. -/
def OrderAction.call (act : OrderAction) (trades : List Trade) : Call :=
  match act.type with
  | .newOrder => .submit act.order trades
  | .cancelOrder => .cancel act.cancelId

/-- Both engines stand for one book after at most `k` submissions, on a pool that began with `n`
    slots. -/
structure Abreast (n k : ℕ) (b : PoolOrderBook) (t : StlOrderBook) : Prop where
  same : Same b t
  paid : ∃ w, Paid n b w ∧ w.accepted ≤ k

namespace Abreast
variable {n k : ℕ} {b : PoolOrderBook} {t : StlOrderBook}

theorem start (hn : n < 2 ^ 32) : Abreast n 0 (.ctor n) {} :=
  ⟨same_start (fits_ctor.mpr hn), {}, .ctor hn, le_rfl⟩

/-- One call to both engines. -/
theorem call (h : Abreast n k b t) (hn : n < 2 ^ 32) (c : Call)
    (hk : k + (if c.isSubmit then 1 else 0) ≤ 2 ^ 31) : (b.call c).1 = (t.call c).1 ∧
      Abreast n (k + if c.isSubmit then 1 else 0) (b.call c).2 (t.call c).2 := by
  obtain ⟨w, hpaid, hacc⟩ := h.paid
  have hrecord : (w.record ⟨b, c, (b.call c).1, (b.call c).2⟩).accepted ≤
      k + if c.isSubmit then 1 else 0 := by
    cases c with
    | submit o out =>
      simp only [Effort.record, Call.isSubmit, if_true]
      split_ifs <;> omega
    | cancel _ | clear => exact hacc
  have hfit := hpaid.fits_call hn (hrecord.trans hk)
  obtain ⟨hreply, hsame⟩ := Same.call b t c h.same hfit
  exact ⟨hreply, hsame, _, hpaid.call c hfit, hrecord⟩

end Abreast

/-! ### The differential test -/

/-- The variables of `test_differential_fuzzing`. -/
structure Duel where
  stlBook : StlOrderBook := {}
  poolBook : PoolOrderBook
  stlTrades : List Trade := []
  poolTrades : List Trade := []

namespace Duel

/-- The last trades agree, but for their time. -/
def LastTrade : Option Trade → Option Trade → Prop
  | some tStl, some tPool =>
    tStl.makerOrderId = tPool.makerOrderId ∧ tStl.takerOrderId = tPool.takerOrderId ∧
      tStl.price = tPool.price ∧ tStl.quantity = tPool.quantity ∧
      tStl.aggressorSide = tPool.aggressorSide
  | none, _ => True
  | some _, none => False

instance : (a b : Option Trade) → Decidable (LastTrade a b)
  | some _, some _ => inferInstanceAs (Decidable (_ ∧ _))
  | none, _ => inferInstanceAs (Decidable True)
  | some _, none => inferInstanceAs (Decidable False)

/-- The assertions behind each action. -/
def Verified (d : Duel) : Prop :=
  d.stlTrades.length = d.poolTrades.length ∧
  LastTrade d.stlTrades.getLast? d.poolTrades.getLast? ∧
  d.stlBook.totalOrders = d.poolBook.totalOrders ∧
  d.stlBook.bestBid = d.poolBook.bestBid ∧ d.stlBook.bestAsk = d.poolBook.bestAsk

instance (d : Duel) : Decidable d.Verified := inferInstanceAs (Decidable (_ ∧ _))

/-- One pass of the loop; the test fails where an assertion does. -/
def step (d : Duel) (action : OrderAction) : Option Duel :=
  let played : Option Duel :=
    match action.type with
    | .newOrder =>
      let (stlRes, stlTrades, stlBook) := d.stlBook.submitOrder action.order d.stlTrades
      let (poolRes, poolTrades, poolBook) := d.poolBook.submitOrder action.order d.poolTrades
      if stlRes = poolRes then some ⟨stlBook, poolBook, stlTrades, poolTrades⟩ else none
    | .cancelOrder =>
      let (stlRes, stlBook) := d.stlBook.cancelOrder action.cancelId
      let (poolRes, poolBook) := d.poolBook.cancelOrder action.cancelId
      if stlRes = poolRes then some { d with stlBook := stlBook, poolBook := poolBook } else none
  played.bind fun d => if d.Verified then some d else none

theorem LastTrade.refl (last : Option Trade) : LastTrade last last := by
  cases last with
  | none => trivial
  | some t => exact ⟨rfl, rfl, rfl, rfl, rfl⟩

section Passes
variable {n k : ℕ} {d : Duel}

theorem verified (h : Abreast n k d.poolBook d.stlBook) (htrades : d.stlTrades = d.poolTrades) :
    d.Verified := by
  have hagree := h.same.agree
  refine ⟨by rw [htrades], ?_, hagree.totalOrders.symm, hagree.bestBid.symm, hagree.bestAsk.symm⟩
  rw [htrades]
  exact .refl _

/-- No assertion fails on the next action. -/
theorem step_passes (h : Abreast n k d.poolBook d.stlBook) (htrades : d.stlTrades = d.poolTrades)
    (hn : n < 2 ^ 32) (action : OrderAction)
    (hk : k + (if action.type = .newOrder then 1 else 0) ≤ 2 ^ 31) :
    ∃ d', d.step action = some d' ∧ d'.stlTrades = d'.poolTrades ∧
      Abreast n (k + if action.type = .newOrder then 1 else 0) d'.poolBook d'.stlBook := by
  cases htype : action.type with
  | newOrder =>
    rw [htype] at hk
    obtain ⟨hreply, h'⟩ := h.call hn (.submit action.order d.poolTrades) hk
    have hresult : (d.stlBook.submitOrder action.order d.poolTrades).1 =
        (d.poolBook.submitOrder action.order d.poolTrades).1 :=
      Option.some.inj (congrArg Reply.result hreply.symm)
    have hsame : (d.stlBook.submitOrder action.order d.poolTrades).2.1 =
        (d.poolBook.submitOrder action.order d.poolTrades).2.1 :=
      congrArg Reply.outTrades hreply.symm
    refine ⟨⟨_, _, _, _⟩, ?_, hsame, h'⟩
    unfold step
    rw [htype, htrades]
    dsimp only
    rw [if_pos hresult, Option.bind_some]
    exact if_pos (verified h' hsame)
  | cancelOrder =>
    rw [htype] at hk
    obtain ⟨hreply, h'⟩ := h.call hn (.cancel action.cancelId) hk
    have hresult : (d.stlBook.cancelOrder action.cancelId).1 =
        (d.poolBook.cancelOrder action.cancelId).1 :=
      Option.some.inj (congrArg Reply.result hreply.symm)
    have hverified : Verified ⟨(d.stlBook.cancelOrder action.cancelId).2,
        (d.poolBook.cancelOrder action.cancelId).2, d.stlTrades, d.poolTrades⟩ := verified h' htrades
    refine ⟨⟨(d.stlBook.cancelOrder action.cancelId).2, (d.poolBook.cancelOrder action.cancelId).2,
      d.stlTrades, d.poolTrades⟩, ?_, htrades, h'⟩
    unfold step
    rw [htype]
    dsimp only
    rw [if_pos hresult, Option.bind_some]
    exact if_pos hverified

end Passes

end Duel

/-- The new orders of a workload, counted from the front. -/
theorem length_newOrders_cons (action : OrderAction) (actions : List OrderAction) :
    (newOrders (action :: actions)).length =
      (if action.type = .newOrder then 1 else 0) + (newOrders actions).length := by
  unfold newOrders
  rw [List.filter_cons]
  split_ifs with h₁ h₂
  · simp
    omega
  · simp at h₁ h₂
    exact absurd h₁ h₂
  · simp_all
  · simp

/-- No assertion fails along a replay. -/
theorem Duel.replay_passes {n : ℕ} (hn : n < 2 ^ 32) (actions : List OrderAction) {k : ℕ} {d : Duel}
    (h : Abreast n k d.poolBook d.stlBook) (htrades : d.stlTrades = d.poolTrades)
    (hk : k + (newOrders actions).length ≤ 2 ^ 31) :
    ∃ d', actions.foldlM Duel.step d = some d' ∧ d'.stlTrades = d'.poolTrades ∧
      Agree d'.poolBook d'.stlBook := by
  induction actions generalizing k d with
  | nil => exact ⟨d, rfl, htrades, h.same.agree⟩
  | cons action actions ih =>
    rw [length_newOrders_cons] at hk
    obtain ⟨d₁, hstep, htrades₁, h₁⟩ := step_passes h htrades hn action (by omega)
    obtain ⟨d', hrest, hlast⟩ := ih h₁ htrades₁ (by omega)
    refine ⟨d', ?_, hlast⟩
    rw [List.foldlM_cons, hstep]
    exact hrest

/-- The test on a workload: there is no result if it fails. -/
def testDifferentialFuzzing {ρ : Type*} (R : Rng ρ) (rng : ρ) (orderCount : UInt64) : Option Duel :=
  (generate R rng .balanced orderCount 10000 50).bind fun actions =>
    actions.foldlM Duel.step { poolBook := .ctor orderCount.toNat }

/-- The differential test passes, on every list of actions and so on every workload that can be
    generated: no assertion fails, the trades of both engines are the same to the last, and both answer
    every query alike but for the volume at a price. -/
theorem differential_passes {ρ : Type*} (R : Rng ρ) (rng : ρ) (orderCount : UInt64)
    (hcount : orderCount.toNat ≤ 2 ^ 31) :
    (∀ actions, (newOrders actions).length ≤ 2 ^ 31 →
      ∃ d, actions.foldlM Duel.step { poolBook := .ctor orderCount.toNat } = some d ∧
        d.stlTrades = d.poolTrades ∧ Agree d.poolBook d.stlBook) ∧
    ∃ d, testDifferentialFuzzing R rng orderCount = some d ∧ d.stlTrades = d.poolTrades ∧
      Agree d.poolBook d.stlBook := by
  have hn : orderCount.toNat < 2 ^ 32 := by omega
  have hall : ∀ actions, (newOrders actions).length ≤ 2 ^ 31 →
      ∃ d, actions.foldlM Duel.step { poolBook := .ctor orderCount.toNat } = some d ∧
        d.stlTrades = d.poolTrades ∧ Agree d.poolBook d.stlBook := by
    intro actions hactions
    exact Duel.replay_passes hn actions (.start hn) rfl (by omega)
  refine ⟨hall, ?_⟩
  obtain ⟨g, hg, hinv⟩ : ∃ g, Generator.run R .balanced 10000 50 { rng := rng } orderCount.toNat =
      some g ∧ g.Inv orderCount.toNat := Generator.run_inv (by decide) rng orderCount.toNat_lt
  have hlength : (newOrders g.actions).length ≤ orderCount.toNat := by
    rw [newOrders, List.length_map, ← hinv.wellFormed.length]
    exact List.length_filter_le ..
  obtain ⟨d, hd, hlast⟩ := hall g.actions (hlength.trans hcount)
  refine ⟨d, ?_, hlast⟩
  rw [testDifferentialFuzzing, generate, hg]
  exact hd

/-- A sell, and a buy that takes half of it. -/
def sellAndBuy : List OrderAction :=
  [{ type := .newOrder, order := { orderId := 1, price := 100, initialQuantity := 4, side := .sell } },
   { type := .newOrder, order := { orderId := 2, price := 100, initialQuantity := 2 } }]

/-- The tape gives two limit orders, a cancel of the first and a market order. -/
theorem differential_passes_tape :
    (∃ d, sellAndBuy.foldlM Duel.step { poolBook := .ctor 4 } = some d ∧
      d.stlTrades = d.poolTrades ∧ Agree d.poolBook d.stlBook) ∧
    ∃ d, testDifferentialFuzzing tape [0, 0, 50, 0, 1, 1, 51, 7, 60, 0, 90, 1, 3] 4 = some d ∧
      d.stlTrades = d.poolTrades ∧ Agree d.poolBook d.stlBook := by
  obtain ⟨hall, htape⟩ := differential_passes tape
    [0, 0, 50, 0, 1, 1, 51, 7, 60, 0, 90, 1, 3] 4 (by decide)
  exact ⟨hall sellAndBuy (by decide), htape⟩

/-! ### The benchmark -/

/-- What `run_benchmark` needs of an engine. -/
structure Engine (ε : Type) where
  submitOrder : ε → Order → List Trade → Bool × List Trade × ε
  cancelOrder : ε → OrderId → Bool × ε
  clear : ε → ε
  totalOrders : ε → ℕ

namespace Engine

def pool : Engine PoolOrderBook where
  submitOrder := PoolOrderBook.submitOrder
  cancelOrder := PoolOrderBook.cancelOrder
  clear := PoolOrderBook.clear
  totalOrders := PoolOrderBook.totalOrders

def stl : Engine StlOrderBook where
  submitOrder := StlOrderBook.submitOrder
  cancelOrder := StlOrderBook.cancelOrder
  clear := StlOrderBook.clear
  totalOrders := StlOrderBook.totalOrders

variable {ε : Type} (E : Engine ε)

/-- One action on an engine with the trades so far; the flag that is returned is not looked at. -/
def act (s : ε × List Trade) (action : OrderAction) : ε × List Trade :=
  match action.type with
  | .newOrder =>
    let (_, trades, engine) := E.submitOrder s.1 action.order s.2
    (engine, trades)
  | .cancelOrder => ((E.cancelOrder s.1 action.cancelId).2, s.2)

end Engine

/-- The counts among the statistics; times are left out. -/
structure BenchmarkStats where
  totalTrades : ℕ
  totalOrdersInBook : ℕ
  deriving DecidableEq

/-- Warm the engine up, clear it, and replay all actions. -/
def runBenchmark {ε : Type} (E : Engine ε) (engine : ε) (actions : List OrderAction)
    (warmupCount : ℕ) : BenchmarkStats × ε :=
  let warmup := (actions.take (min warmupCount actions.length)).foldl E.act (engine, [])
  let (engine, trades) := actions.foldl E.act (E.clear warmup.1, [])
  ({ totalTrades := trades.length, totalOrdersInBook := E.totalOrders engine }, engine)

section Benchmark
variable {n k : ℕ} {b : PoolOrderBook} {t : StlOrderBook} {trades : List Trade}

theorem Abreast.act (h : Abreast n k b t) (hn : n < 2 ^ 32) (trades : List Trade)
    (action : OrderAction) (hk : k + (if action.type = .newOrder then 1 else 0) ≤ 2 ^ 31) :
    (Engine.pool.act (b, trades) action).2 = (Engine.stl.act (t, trades) action).2 ∧
      Abreast n (k + if action.type = .newOrder then 1 else 0)
        (Engine.pool.act (b, trades) action).1 (Engine.stl.act (t, trades) action).1 := by
  unfold Engine.act
  cases htype : action.type with
  | newOrder =>
    rw [htype] at hk
    obtain ⟨hreply, h'⟩ := h.call hn (.submit action.order trades) hk
    exact ⟨congrArg Reply.outTrades hreply, h'⟩
  | cancelOrder =>
    rw [htype] at hk
    obtain ⟨-, h'⟩ := h.call hn (.cancel action.cancelId) hk
    exact ⟨rfl, h'⟩

/-- The engines replay actions alike. -/
theorem Abreast.replay (h : Abreast n k b t) (hn : n < 2 ^ 32) (actions : List OrderAction)
    (trades : List Trade) (hk : k + (newOrders actions).length ≤ 2 ^ 31) :
    (actions.foldl Engine.pool.act (b, trades)).2 = (actions.foldl Engine.stl.act (t, trades)).2 ∧
      Abreast n (k + (newOrders actions).length) (actions.foldl Engine.pool.act (b, trades)).1
        (actions.foldl Engine.stl.act (t, trades)).1 := by
  induction actions generalizing k b t trades with
  | nil => exact ⟨rfl, h⟩
  | cons action actions ih =>
    rw [length_newOrders_cons] at hk ⊢
    obtain ⟨htrades, h'⟩ := h.act hn trades action (by omega)
    rw [← Nat.add_assoc, List.foldl_cons, List.foldl_cons]
    have hnext := ih h' (Engine.pool.act (b, trades) action).2 (by omega)
    rw [Prod.mk.eta] at hnext
    rwa [htrades, Prod.mk.eta] at hnext

/-- A pool that was cleared is like a new one. -/
theorem Abreast.cleared (h : Abreast n k b t) (hn : n < 2 ^ 32) (hk : k ≤ 2 ^ 31) {t' : StlOrderBook}
    (hinv : t'.Inv) (hempty : t'.book = fun _ => []) : Abreast n k b.clear t' := by
  obtain ⟨-, hclear⟩ := h.call hn .clear hk
  refine ⟨⟨hclear.same.pool, hinv, ?_⟩, hclear.paid⟩
  rw [hempty]
  exact (inv_clear h.same.pool).2

theorem length_newOrders_take (actions : List OrderAction) (m : ℕ) :
    (newOrders (actions.take m)).length ≤ (newOrders actions).length := by
  rw [newOrders, newOrders, List.length_map, List.length_map]
  exact ((List.take_sublist ..).filter _).length_le

end Benchmark

/-- What the benchmark counts depends on the actions alone: neither the engine nor the size of its pool
    nor the warm-up of either engine makes a difference to the replay on a new reference engine. Both
    engines then answer every query alike but for the volume at a price. -/
theorem run_benchmark_counts {n : ℕ} (hn : n < 2 ^ 32) (actions : List OrderAction)
    (hcount : 2 * (newOrders actions).length ≤ 2 ^ 31) (poolWarmup stlWarmup : ℕ) :
    let pool := runBenchmark .pool (.ctor n) actions poolWarmup
    let stl := runBenchmark .stl {} actions stlWarmup
    let fresh := actions.foldl Engine.stl.act ({}, [])
    pool.1 = ⟨fresh.2.length, fresh.1.totalOrders⟩ ∧ stl.1 = pool.1 ∧ Agree pool.2 stl.2 := by
  have hstart : Abreast n 0 (.ctor n) {} := .start hn
  have hpool := (hstart.replay hn (actions.take (min poolWarmup actions.length)) [] (by
    have := length_newOrders_take actions (min poolWarmup actions.length)
    omega)).2
  set warm := ((actions.take (min poolWarmup actions.length)).foldl Engine.pool.act (.ctor n, [])).1
  set k := 0 + (newOrders (actions.take (min poolWarmup actions.length))).length
  have hk : k + (newOrders actions).length ≤ 2 ^ 31 := by
    have := length_newOrders_take actions (min poolWarmup actions.length)
    omega
  -- the cleared pool beside a new reference engine, and beside one that was cleared
  have hempty := StlOrderBook.inv_empty
  have hfresh := (hpool.cleared hn (by omega) hempty.1 hempty.2).replay hn actions [] hk
  have hcleared := StlOrderBook.inv_clear (b := ((actions.take (min stlWarmup actions.length)).foldl
    Engine.stl.act ({}, [])).1)
  have hboth := (hpool.cleared hn (by omega) hcleared.1 hcleared.2).replay hn actions [] hk
  have hagree := hboth.2.same.agree
  intro pool stl fresh
  refine ⟨?_, ?_, hagree⟩
  · rw [BenchmarkStats.mk.injEq]
    exact ⟨congrArg List.length hfresh.1, hfresh.2.same.agree.totalOrders⟩
  · rw [BenchmarkStats.mk.injEq]
    exact ⟨congrArg List.length hboth.1.symm, hagree.totalOrders.symm⟩

/-- The warm-up leaves the ids of the replay free. -/
theorem run_benchmark_counts_sellAndBuy : (runBenchmark .stl {} sellAndBuy 2).1 = ⟨1, 1⟩ ∧
    Agree (runBenchmark .pool (.ctor 0) sellAndBuy 1).2 (runBenchmark .stl {} sellAndBuy 2).2 := by
  obtain ⟨hpool, hstl, hagree⟩ := run_benchmark_counts (n := 0) (by decide) sellAndBuy (by decide) 1 2
  refine ⟨?_, hagree⟩
  rw [hstl, hpool]
  decide

end Titan
