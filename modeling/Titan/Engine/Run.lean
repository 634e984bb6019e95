import Titan.Schemes.History
import Titan.Engine.StlRefine

/-! Runs of calls on both engines.

    A call is a step of the pool, of the reference engine and of the book at once, and the replies
    are the same. Whatever a caller can observe is then a function of the book that both engines
    stand for. -/

namespace Titan
open Schemes

/-- A call that may change the book; a submission brings the caller's vector of trades. -/
inductive Call where
  | submit (order : Order) (outTrades : List Trade)
  | cancel (orderId : OrderId)
  | clear

/-- What the caller gets back: the returned flag, if there is one, and the vector of trades. -/
structure Reply where
  result : Option Bool
  outTrades : List Trade
  deriving DecidableEq

def PoolOrderBook.call (b : PoolOrderBook) : Call → Reply × PoolOrderBook
  | .submit order outTrades =>
    let (result, outTrades, b) := b.submitOrder order outTrades
    (⟨result, outTrades⟩, b)
  | .cancel orderId =>
    let (result, b) := b.cancelOrder orderId
    (⟨result, []⟩, b)
  | .clear => (⟨none, []⟩, b.clear)

def StlOrderBook.call (b : StlOrderBook) : Call → Reply × StlOrderBook
  | .submit order outTrades =>
    let (result, outTrades, b) := b.submitOrder order outTrades
    (⟨result, outTrades⟩, b)
  | .cancel orderId =>
    let (result, b) := b.cancelOrder orderId
    (⟨result, []⟩, b)
  | .clear => (⟨none, []⟩, b.clear)

/-- The same calls on the book. -/
def Book.call (k : Book) : Call → Reply × Book
  | .submit order outTrades =>
    let (result, trades, k) := k.submit order
    (⟨result, outTrades ++ trades⟩, k)
  | .cancel orderId =>
    let (result, k) := k.cancel orderId
    (⟨result, []⟩, k)
  | .clear => (⟨none, []⟩, k.clear)

theorem Book.Sane.call {k : Book} (h : k.Sane) : ∀ c, (k.call c).2.Sane
  | .submit o _ => h.submit o
  | .cancel id => h.cancel id
  | .clear => .empty

namespace PoolOrderBook
variable {b : PoolOrderBook}

/-- The pool is small enough for its 32-bit slot numbers. -/
def Fits (b : PoolOrderBook) : Prop := b.poolCapacity < 2 ^ 32

instance (b : PoolOrderBook) : Decidable b.Fits := inferInstanceAs (Decidable (_ < _))

/-- A call on the pool is a call on its book. -/
theorem call_spec (h : b.Inv) (c : Call) (hfit : (b.call c).2.Fits) : (b.call c).2.Inv ∧
    (b.call c).1 = (b.book.call c).1 ∧ (b.call c).2.book = (b.book.call c).2 := by
  cases c with
  | submit o out =>
    obtain ⟨h1, h2⟩ := submitOrder_spec h o out hfit
    simp only [Prod.mk.injEq] at h2
    refine ⟨h1, ?_, h2.2.2⟩
    rw [call, Book.call]
    simp only [h2.1, h2.2.1]
  | cancel id =>
    obtain ⟨h1, h2⟩ := cancelOrder_spec h id
    refine ⟨h1, ?_, book_cancelOrder h id⟩
    rw [call, Book.call, ← h2]
  | clear => exact ⟨(inv_clear h).1, rfl, (inv_clear h).2⟩

/-- The states of runs that start from a new pool and never outgrow the slot numbers. -/
def Reachable (b : PoolOrderBook) : Prop := ∃ initialCapacity calls,
  (ctor initialCapacity).Fits ∧ (∀ e ∈ history call (ctor initialCapacity) calls, e.after.Fits) ∧
    final call (ctor initialCapacity) calls = b

theorem fits_ctor {n : ℕ} : (ctor n).Fits ↔ n < 2 ^ 32 := by
  rw [Fits, poolCapacity, ctor, List.length_map, List.length_range]

/-- What a run keeps: the pool is in order and its book is sane. -/
def Good (b : PoolOrderBook) : Prop := b.Inv ∧ b.book.Sane

theorem good_ctor {n : ℕ} (h : (ctor n).Fits) : (ctor n).Good := by
  obtain ⟨h1, h2⟩ := inv_ctor (fits_ctor.mp h)
  exact ⟨h1, h2 ▸ .empty⟩

theorem good_call (b : PoolOrderBook) (c : Call) (h : b.Good) (hfit : (b.call c).2.Fits) :
    (b.call c).2.Good := by
  obtain ⟨h1, -, h2⟩ := call_spec h.1 c hfit
  exact ⟨h1, h2 ▸ h.2.call c⟩

theorem Reachable.good (h : b.Reachable) : b.Good := by
  obtain ⟨n, calls, hn, hfit, rfl⟩ := h
  exact final_invariant good_call calls (good_ctor hn) hfit

theorem Reachable.call (h : b.Reachable) (c : Call) (hfit : (b.call c).2.Fits) :
    (b.call c).2.Reachable := by
  obtain ⟨n, calls, hn, hall, rfl⟩ := h
  refine ⟨n, calls ++ [c], hn, ?_, final_append ..⟩
  rw [history_append]
  intro e he
  rcases List.mem_append.mp he with he | he
  · exact hall e he
  · rw [List.mem_singleton.mp he]; exact hfit

end PoolOrderBook

/-- A short day: two sells are hit, one of them in part, the third is cancelled, a market order
    sweeps the rest, and an id is used again. -/
def tradingDay : List Call :=
  [.submit { orderId := 9, price := 50, initialQuantity := 2 } [], .clear,
   .submit { orderId := 1, price := 101, initialQuantity := 5, side := .sell } [],
   .submit { orderId := 2, price := 101, initialQuantity := 7, side := .sell } [],
   .submit { orderId := 3, price := 102, initialQuantity := 4, side := .sell } [],
   .submit { orderId := 4, price := 101, initialQuantity := 8 } [],
   .cancel 3,
   .submit { orderId := 5, initialQuantity := 10, type := .market } [],
   .submit { orderId := 1, price := 100, initialQuantity := 9 } [],
   .submit { orderId := 6, price := 100, initialQuantity := 1 } []]

/-- A pool of one slot is enough, since it grows. -/
theorem tradingDay_fits : (PoolOrderBook.ctor 1).Fits ∧
    ∀ e ∈ history PoolOrderBook.call (.ctor 1) tradingDay, e.after.Fits := by
  decide

/-- The pool at the end of the day. -/
def tradingDayClose : PoolOrderBook := final PoolOrderBook.call (.ctor 1) tradingDay

theorem tradingDayClose_reachable : tradingDayClose.Reachable :=
  ⟨1, tradingDay, tradingDay_fits.1, tradingDay_fits.2, rfl⟩

namespace StlOrderBook
variable {b : StlOrderBook}

/-- A call on the reference engine is a call on its book. -/
theorem call_spec (h : b.Inv) (c : Call) : (b.call c).2.Inv ∧
    (b.call c).1 = (b.book.call c).1 ∧ (b.call c).2.book = (b.book.call c).2 := by
  cases c with
  | submit o out =>
    obtain ⟨h1, h2⟩ := submitOrder_spec h o out
    simp only [Prod.mk.injEq] at h2
    refine ⟨h1, ?_, h2.2.2⟩
    rw [call, Book.call]
    simp only [h2.1, h2.2.1]
  | cancel id =>
    obtain ⟨h1, h2⟩ := cancelOrder_spec h id
    refine ⟨h1, ?_, congrArg Prod.snd h2⟩
    rw [call, Book.call, ← h2]
  | clear => exact ⟨inv_clear.1, rfl, inv_clear.2⟩

/-- The states of runs that start from an empty book. -/
def Reachable (b : StlOrderBook) : Prop := ∃ calls, final call {} calls = b

def Good (b : StlOrderBook) : Prop := b.Inv ∧ b.book.Sane

theorem good_call (b : StlOrderBook) (c : Call) (h : b.Good) : (b.call c).2.Good := by
  obtain ⟨h1, -, h2⟩ := call_spec h.1 c
  exact ⟨h1, h2 ▸ h.2.call c⟩

theorem Reachable.good (h : b.Reachable) : b.Good := by
  obtain ⟨calls, rfl⟩ := h
  refine final_invariant (P := fun _ => True) (fun s c hs _ => good_call s c hs) calls
    ?_ fun _ _ => trivial
  exact ⟨inv_empty.1, inv_empty.2 ▸ .empty⟩

end StlOrderBook

/-! ### The engines agree -/

/-- Both engines answer every query alike (`volumeAtPrice` aside). -/
structure Agree (b : PoolOrderBook) (t : StlOrderBook) : Prop where
  hasOrder : ∀ id, b.hasOrder id = t.hasOrder id
  getOrder : ∀ id, b.getOrder id = t.getOrder id
  bestBid : b.bestBid = t.bestBid
  bestAsk : b.bestAsk = t.bestAsk
  totalOrders : b.totalOrders = t.totalOrders
  bidLevels : b.bidLevels = t.bidLevels
  askLevels : b.askLevels = t.askLevels

/-- Both engines stand for one book. -/
structure Same (b : PoolOrderBook) (t : StlOrderBook) : Prop where
  pool : b.Inv
  stl : t.Inv
  book : b.book = t.book

theorem Same.agree {b : PoolOrderBook} {t : StlOrderBook} (h : Same b t) : Agree b t where
  hasOrder id := by rw [h.pool.hasOrder_eq, h.stl.hasOrder_eq, h.book]
  getOrder id := by rw [h.pool.getOrder_eq, h.stl.getOrder_eq, h.book]
  bestBid := by rw [h.pool.bestBid_eq, h.stl.bestBid_eq, h.book]
  bestAsk := by rw [h.pool.bestAsk_eq, h.stl.bestAsk_eq, h.book]
  totalOrders := by rw [h.pool.totalOrders_eq, h.stl.totalOrders_eq, h.book]
  bidLevels := by
    show (b.levels .buy).size = (t.levels .buy).size
    rw [h.pool.levels_size, h.stl.levels_size, h.book]
  askLevels := by
    show (b.levels .sell).size = (t.levels .sell).size
    rw [h.pool.levels_size, h.stl.levels_size, h.book]

theorem Same.call (b : PoolOrderBook) (t : StlOrderBook) (c : Call) (h : Same b t)
    (hfit : (b.call c).2.Fits) : (b.call c).1 = (t.call c).1 ∧ Same (b.call c).2 (t.call c).2 := by
  obtain ⟨p1, p2, p3⟩ := PoolOrderBook.call_spec h.pool c hfit
  obtain ⟨s1, s2, s3⟩ := StlOrderBook.call_spec h.stl c
  exact ⟨by rw [p2, s2, h.book], p1, s1, by rw [p3, s3, h.book]⟩

theorem same_start {n : ℕ} (h : (PoolOrderBook.ctor n).Fits) : Same (.ctor n) {} := by
  obtain ⟨p1, p2⟩ := PoolOrderBook.inv_ctor (PoolOrderBook.fits_ctor.mp h)
  exact ⟨p1, StlOrderBook.inv_empty.1, by rw [p2, StlOrderBook.inv_empty.2]⟩

/-- Call by call, the pool and the reference engine return the same flags and the same trades, and
    they answer every query alike afterwards. -/
theorem engines_agree (initialCapacity : ℕ) (calls : List Call)
    (hn : (PoolOrderBook.ctor initialCapacity).Fits)
    (hfit : ∀ e ∈ history PoolOrderBook.call (.ctor initialCapacity) calls, e.after.Fits) :
    Agree (.ctor initialCapacity) {} ∧
    List.Forall₂ (fun e f => e.call = f.call ∧ e.reply = f.reply ∧ Agree e.after f.after)
      (history PoolOrderBook.call (.ctor initialCapacity) calls)
      (history StlOrderBook.call {} calls) := by
  refine ⟨(same_start hn).agree, ?_⟩
  refine (history_simulation Same.call calls (same_start hn) hfit).imp ?_
  rintro e f ⟨hc, hr, -, hs⟩
  exact ⟨hc, hr, hs.agree⟩

theorem engines_agree_tradingDay : Agree (.ctor 1) {} ∧
    List.Forall₂ (fun e f => e.call = f.call ∧ e.reply = f.reply ∧ Agree e.after f.after)
      (history PoolOrderBook.call (.ctor 1) tradingDay)
      (history StlOrderBook.call {} tradingDay) :=
  engines_agree 1 tradingDay tradingDay_fits.1 tradingDay_fits.2

/-! ### Sanity of both engines -/

/-- The orders of each level of a side, best price first. -/
def PoolOrderBook.queues (b : PoolOrderBook) (s : Side) : List (List Order) :=
  (b.levels s).entries.map fun e => (b.levelSlots e.2).map b.order

/-- The orders of each queue of a side, best price first. -/
def StlOrderBook.queues (b : StlOrderBook) (s : Side) : List (List Order) :=
  (b.levels s).entries.map fun e => e.2.map (·.order)

/-- A book that may be shown to the world: best prices, and the orders of each level. -/
structure Presentable (bestBid bestAsk : Option Price) (queues : Side → List (List Order)) :
    Prop where
  uncrossed : ∀ p ∈ bestBid, ∀ q ∈ bestAsk, p < q
  noEmptyLevel : ∀ s, [] ∉ queues s
  orders : ∀ s, ∀ o ∈ (queues s).flatten, o.type = .limit ∧ 0 < o.price ∧
    0 < o.initialQuantity ∧ 0 < o.remainingQuantity
  /-- Its id rests once over both sides. -/
  unique : ∀ s, ∀ o ∈ (queues s).flatten,
    ((queues .buy).flatten ++ (queues .sell).flatten).countP (fun x => x.orderId = o.orderId) = 1

theorem flatten_map_map {α β : Type} (f : α → List β) (g : β → Order) (xs : List α) :
    (xs.map fun e => (f e).map g).flatten = (xs.flatMap f).map g := by
  rw [List.flatMap, List.map_flatten, List.map_map]
  rfl

theorem Book.Sane.presentable {k : Book} (h : k.Sane) {queues : Side → List (List Order)}
    (hq : ∀ s, (queues s).flatten = k s) (hne : ∀ s, [] ∉ queues s) :
    Presentable (k.bestPrice .buy) (k.bestPrice .sell) queues where
  uncrossed p hp q hq := by
    obtain ⟨x, hx, rfl⟩ := Option.mem_map.mp hp
    obtain ⟨y, hy, rfl⟩ := Option.mem_map.mp hq
    exact h.uncrossed .sell y (List.mem_of_head? hy) x (List.mem_of_head? hx)
  noEmptyLevel := hne
  orders s o ho := by
    obtain ⟨-, h2, h3, h4, h5⟩ := h.orders s o (hq s ▸ ho)
    exact ⟨h2, UInt64.pos_iff_ne_zero.mpr h3, UInt32.pos_iff_ne_zero.mpr h4,
      UInt32.pos_iff_ne_zero.mpr h5⟩
  unique s o ho := by
    have hmem : o ∈ k.orders := (k.mem_orders s).mpr (.inl (hq s ▸ ho))
    have hcount := List.count_eq_one_of_mem h.ids (List.mem_map_of_mem (f := (·.orderId)) hmem)
    rw [List.count, List.countP_map] at hcount
    rw [hq, hq, ← hcount, Book.orders]
    exact List.countP_congr fun x _ => by simp

/-- In every reachable state of either engine the book is not crossed, no level is empty, and every
    resting order is a limit order with a price and quantities, resting once. -/
theorem engines_presentable :
    (∀ b : PoolOrderBook, b.Reachable → Presentable b.bestBid b.bestAsk b.queues) ∧
    ∀ t : StlOrderBook, t.Reachable → Presentable t.bestBid t.bestAsk t.queues := by
  refine ⟨fun b hb => ?_, fun t ht => ?_⟩
  · obtain ⟨hinv, hsane⟩ := hb.good
    rw [hinv.bestBid_eq, hinv.bestAsk_eq]
    refine hsane.presentable (fun s => flatten_map_map ..) fun s hs => ?_
    obtain ⟨e, he, hnil⟩ := List.mem_map.mp hs
    exact hinv.noEmptyLevel s e he
      ((hinv.shape.level s e he).links.head_eq_nil_iff.mpr (List.map_eq_nil_iff.mp hnil))
  · obtain ⟨hinv, hsane⟩ := ht.good
    rw [hinv.bestBid_eq, hinv.bestAsk_eq]
    refine hsane.presentable (fun s => flatten_map_map ..) fun s hs => ?_
    obtain ⟨e, he, hnil⟩ := List.mem_map.mp hs
    exact hinv.noEmptyLevel s e he (List.map_eq_nil_iff.mp hnil)

theorem engines_presentable_tradingDay :
    Presentable tradingDayClose.bestBid tradingDayClose.bestAsk tradingDayClose.queues ∧
    let t := final StlOrderBook.call {} tradingDay
    Presentable t.bestBid t.bestAsk t.queues :=
  ⟨engines_presentable.1 tradingDayClose tradingDayClose_reachable,
    engines_presentable.2 (final StlOrderBook.call {} tradingDay) ⟨tradingDay, rfl⟩⟩

end Titan
