import Titan.Engine.PoolSpec
import Titan.Engine.Views

/-! What a run of calls costs.

    A trade that fills its maker takes an order out of the book; at most one trade of a submission does
    not, and then the submission is used up and does not come to rest. So with the orders in the book
    as potential, a submission pays for one trade. The orders at the peak of a run also bound what the
    pool grows to. -/

namespace Titan
open Schemes

/-- Each trade but the last takes its maker out of the list. -/
theorem length_fill (o : Order) (q : Quantity) (L : List Order) :
    (fill o q L).trades.length + (fill o q L).rest.length ≤
      L.length + if (fill o q L).left = 0 then 1 else 0 := by
  induction L generalizing q with
  | nil => simp [fill]
  | cons m ms ih =>
    by_cases h1 : q = 0 ∨ ¬ o.Reaches m.price
    · rw [fill_stop o h1]
      simp
    by_cases h2 : m.remainingQuantity ≤ q
    · have hms := ih (q - m.remainingQuantity)
      rw [fill_full o h1 h2]
      simp only [List.length_cons]
      omega
    · rw [fill_part o h1 h2]
      simp only [List.length_cons, List.length_nil, if_true]
      omega

namespace Book
variable {k : Book} {o : Order}

theorem length_orders (k : Book) (s : Side) : k.orders.length = (k s).length + (k s.opp).length := by
  rw [(k.orders_perm s).length_eq, List.length_append]

/-- A submission pays for one trade, the orders that it takes out pay for the others. -/
theorem length_accept (k : Book) (o : Order) :
    (k.fillOf o).trades.length + (k.accept o).orders.length ≤ k.orders.length + 1 := by
  have hfill := length_fill o o.effective (k o.side.opp)
  rw [length_orders _ o.side, length_orders k o.side, accept_own, accept_opp, fillOf]
  split_ifs at hfill ⊢ with hrest h0 h0
  · exact absurd h0 hrest.1
  · rw [(place_perm _).length_eq, List.length_cons]
    omega
  · omega
  · omega

/-- A cancel that finds its order takes it out. -/
theorem length_cancel (k : Book) (id : OrderId) :
    (k.cancel id).2.orders.length + (if (k.cancel id).1 then 1 else 0) ≤ k.orders.length := by
  rw [orders_cancel]
  split_ifs with hfound
  · obtain ⟨o, ho⟩ := Option.isSome_iff_exists.mp hfound
    refine List.length_filter_lt_length_iff_exists.mpr ⟨o, List.mem_of_find?_eq_some ho, ?_⟩
    simpa using List.find?_some ho
  · exact List.length_filter_le ..

/-- A pool grows only when it is full and one more order comes to rest. -/
theorem capacityAfter_submit (k : Book) (capacity : ℕ) (o : Order) (out : List Trade) :
    k.capacityAfter capacity (.submit o out) = capacity ∨
    k.Accepts o ∧ (k.accept o).orders.length = capacity + 1 ∧
      k.capacityAfter capacity (.submit o out) = PoolOrderBook.Shape.grownSize capacity := by
  rw [capacityAfter]
  split_ifs with hfull
  · obtain ⟨ha, hrest, hlength⟩ := hfull
    refine .inr ⟨ha, ?_, rfl⟩
    rw [← hlength, accept, if_pos hrest, length_orders _ o.side, length_orders _ o.side, rest]
    dsimp only
    rw [setSide_self, setSide_opp, (place_perm _).length_eq, List.length_cons]
    omega
  · exact .inl rfl

end Book

def Call.isSubmit : Call → Bool
  | .submit _ _ => true
  | .cancel _ | .clear => false

/-- What is counted along a run: accepted submissions, trades, orders that were cancelled or flushed,
    and the most orders that rested at a time. -/
structure Effort where
  accepted : ℕ := 0
  trades : ℕ := 0
  withdrawn : ℕ := 0
  peak : ℕ := 0
  deriving DecidableEq

def Effort.record (w : Effort) (e : Event PoolOrderBook Call Reply) : Effort :=
  let done := if e.reply.result = some true then 1 else 0
  let w := { w with peak := max w.peak e.after.totalOrders }
  match e.call with
  | .submit _ outTrades =>
    { w with
      accepted := w.accepted + done
      trades := w.trades + (e.reply.outTrades.length - outTrades.length) }
  | .cancel _ => { w with withdrawn := w.withdrawn + done }
  | .clear => { w with withdrawn := w.withdrawn + e.before.totalOrders }

namespace PoolOrderBook
variable {b : PoolOrderBook} {n : ℕ} {w : Effort}

/-- The slots of a pool that began with `n` and held `peak` orders at most. -/
def slotBound (n peak : ℕ) : ℕ := max (if n = 0 then 1024 else n) (2 * peak - 2)

theorem slotBound_mono {peak peak' : ℕ} (h : peak ≤ peak') : slotBound n peak ≤ slotBound n peak' :=
  max_le_max le_rfl (by omega)

/-- A full pool of `capacity` slots grows within the bound. -/
theorem grownSize_le_slotBound {capacity peak : ℕ} (hn : n ≤ capacity) (h : capacity + 1 ≤ peak) :
    Shape.grownSize capacity ≤ slotBound n peak := by
  rw [Shape.grownSize, slotBound]
  split_ifs <;> omega

theorem slotBound_lt {peak : ℕ} (hn : n < 2 ^ 32) (hpeak : peak ≤ 2 ^ 31) :
    slotBound n peak < 2 ^ 32 := by
  rw [slotBound]
  split_ifs <;> omega

/-- What a run keeps as long as the slot numbers suffice. -/
structure Paid (n : ℕ) (b : PoolOrderBook) (w : Effort) : Prop where
  good : b.Good
  trades : w.trades + b.totalOrders + w.withdrawn ≤ w.accepted
  peak : b.totalOrders ≤ w.peak ∧ w.peak ≤ w.accepted
  atLeast : n ≤ b.poolCapacity
  capacity : b.poolCapacity ≤ slotBound n w.peak

namespace Paid

theorem fits (h : Paid n b w) (hn : n < 2 ^ 32) (hacc : w.accepted ≤ 2 ^ 31) : b.Fits :=
  h.capacity.trans_lt (slotBound_lt hn (h.peak.2.trans hacc))

theorem fits_call (h : Paid n b w) (hn : n < 2 ^ 32) {c : Call}
    (hacc : (w.record ⟨b, c, (b.call c).1, (b.call c).2⟩).accepted ≤ 2 ^ 31) :
    (b.call c).2.Fits := by
  rw [Fits, h.good.1.capacity_call]
  cases c with
  | cancel _ | clear => exact h.fits hn hacc
  | submit o out =>
    have hold : w.accepted ≤ 2 ^ 31 := le_trans (Nat.le_add_right ..) hacc
    rcases b.book.capacityAfter_submit b.poolCapacity o out with hsame | ⟨ha, hlength, hgrow⟩
    · rw [hsame]
      exact h.fits hn hold
    · have hresult : (b.call (.submit o out)).1.result = some true :=
        congrArg some ((submitOrder_flag h.good.1 o out).mpr ha)
      have haccept := b.book.length_accept o
      have hpeak := h.peak
      rw [h.good.1.totalOrders_eq] at hpeak
      rw [Effort.record, hresult, if_pos rfl] at hacc
      dsimp only at hacc
      rw [hgrow]
      have hbound : Shape.grownSize b.poolCapacity ≤ slotBound n (b.poolCapacity + 1) :=
        grownSize_le_slotBound h.atLeast le_rfl
      exact hbound.trans_lt (slotBound_lt hn (by omega))

theorem capacity_call (h : Paid n b w) (c : Call) {peak : ℕ} (hpeak : w.peak ≤ peak)
    (hafter : (b.book.call c).2.orders.length ≤ peak) :
    n ≤ (b.call c).2.poolCapacity ∧ (b.call c).2.poolCapacity ≤ slotBound n peak := by
  have hkept := h.capacity.trans (slotBound_mono hpeak)
  rw [h.good.1.capacity_call]
  cases c with
  | cancel _ | clear => exact ⟨h.atLeast, hkept⟩
  | submit o out =>
    rcases b.book.capacityAfter_submit b.poolCapacity o out with hsame | ⟨ha, hlength, hgrow⟩
    · rw [hsame]
      exact ⟨h.atLeast, hkept⟩
    · have hbook : (b.book.call (.submit o out)).2 = b.book.accept o := by
        rw [Book.call, Book.submit, if_pos ha]
      rw [hbook, hlength] at hafter
      rw [hgrow]
      exact ⟨h.atLeast.trans (Shape.lt_grownSize _).le, grownSize_le_slotBound h.atLeast hafter⟩

/-- One call of a run. -/
theorem call (h : Paid n b w) (c : Call) (hfit : (b.call c).2.Fits) :
    Paid n (b.call c).2 (w.record ⟨b, c, (b.call c).1, (b.call c).2⟩) := by
  obtain ⟨hinv, hreply, hbook⟩ := call_spec h.good.1 c hfit
  have htrades := h.trades
  have hpeak := h.peak
  have htotal : (b.call c).2.totalOrders = (b.book.call c).2.orders.length := by
    rw [hinv.totalOrders_eq, hbook]
  rw [h.good.1.totalOrders_eq] at htrades hpeak
  have hcapacity := h.capacity_call c (le_max_left w.peak _)
    (le_max_right w.peak (b.book.call c).2.orders.length)
  have hgood := good_call b c h.good hfit
  cases c with
  | submit o out =>
    by_cases ha : b.book.Accepts o
    · have haccept := b.book.length_accept o
      have hcall : b.book.call (.submit o out) =
          (⟨some true, out ++ (b.book.fillOf o).trades⟩, b.book.accept o) := by
        rw [Book.call, Book.submit, if_pos ha]
      rw [hcall] at htotal hcapacity hreply
      refine ⟨hgood, ?_, ?_, hcapacity.1, ?_⟩ <;>
        simp only [Effort.record, hreply, htotal, if_true, List.length_append]
      · omega
      · omega
      · exact hcapacity.2
    · have hcall : b.book.call (.submit o out) = (⟨some false, out⟩, b.book) := by
        rw [Book.call, Book.submit, if_neg ha]
        simp
      rw [hcall] at htotal hcapacity hreply
      refine ⟨hgood, ?_, ?_, hcapacity.1, ?_⟩ <;> simp only [Effort.record, hreply, htotal]
      · simp
        omega
      · simp
        omega
      · exact hcapacity.2
  | cancel id =>
    have hcancel := b.book.length_cancel id
    have hcall : b.book.call (.cancel id) =
        (⟨some (b.book.cancel id).1, []⟩, (b.book.cancel id).2) := rfl
    rw [hcall] at htotal hcapacity hreply
    refine ⟨hgood, ?_, ?_, hcapacity.1, ?_⟩ <;>
      simp only [Effort.record, hreply, htotal, Option.some.injEq]
    · omega
    · omega
    · exact hcapacity.2
  | clear =>
    have hcall : b.book.call .clear = (⟨none, []⟩, fun _ => []) := rfl
    have hnone : (Book.orders fun _ => []).length = 0 := rfl
    rw [hcall, hnone] at htotal
    rw [hcall, hnone] at hcapacity
    refine ⟨hgood, ?_, ?_, hcapacity.1, ?_⟩ <;>
      simp only [Effort.record, htotal, h.good.1.totalOrders_eq]
    · omega
    · omega
    · exact hcapacity.2

theorem ctor (hn : n < 2 ^ 32) : Paid n (.ctor n) {} := by
  obtain ⟨hinv, hbook⟩ := inv_ctor hn
  have htotal : (PoolOrderBook.ctor n).totalOrders = 0 := by
    rw [hinv.totalOrders_eq, hbook]
    rfl
  have hcapacity : (PoolOrderBook.ctor n).poolCapacity = n := by
    rw [poolCapacity, PoolOrderBook.ctor, List.length_map, List.length_range]
  refine ⟨good_ctor (fits_ctor.mpr hn), ?_, ?_, hcapacity.ge, ?_⟩
  · rw [htotal]
    exact le_rfl
  · rw [htotal]
    exact ⟨le_rfl, le_rfl⟩
  · rw [hcapacity, slotBound]
    split_ifs <;> omega

/-- A run of at most `2 ^ 31` submissions. -/
theorem of_history (hn : n < 2 ^ 32) {calls : List Call}
    (hcalls : calls.countP Call.isSubmit ≤ 2 ^ 31) :
    (∀ e ∈ history PoolOrderBook.call (.ctor n) calls, e.after.Fits) ∧
    ((history PoolOrderBook.call (.ctor n) calls).foldl Effort.record {}).accepted ≤
      calls.countP Call.isSubmit ∧
    Paid n (final PoolOrderBook.call (.ctor n) calls)
      ((history PoolOrderBook.call (.ctor n) calls).foldl Effort.record {}) := by
  induction calls using List.reverseRecOn with
  | nil => exact ⟨nofun, le_rfl, .ctor hn⟩
  | append_singleton calls c ih =>
    rw [List.countP_append, List.countP_singleton] at hcalls ⊢
    obtain ⟨hfit, haccepted, hpaid⟩ := ih (by omega)
    rw [history_append, final_append, List.foldl_append]
    set b := final PoolOrderBook.call (.ctor n) calls
    set w := (history PoolOrderBook.call (.ctor n) calls).foldl Effort.record {}
    have hrecord : (w.record ⟨b, c, (b.call c).1, (b.call c).2⟩).accepted ≤
        calls.countP Call.isSubmit + if c.isSubmit then 1 else 0 := by
      cases c with
      | submit o out =>
        simp only [Effort.record, Call.isSubmit, if_true]
        split_ifs <;> omega
      | cancel _ | clear => exact haccepted
    have hfit' := hpaid.fits_call hn (hrecord.trans hcalls)
    refine ⟨fun e he => ?_, hrecord, hpaid.call c hfit'⟩
    rcases List.mem_append.mp he with he | he
    · exact hfit e he
    · rw [List.mem_singleton.mp he]
      exact hfit'

end Paid

/-- What a run costs, whatever is called: all trades, the orders left in the book and those withdrawn
    are paid for by the accepted submissions, and the pool grows to twice the orders at the peak at
    most. So up to `2 ^ 31` submissions never outgrow the slot numbers. -/
theorem effort_bounded (initialCapacity : ℕ) (hn : initialCapacity < 2 ^ 32) (calls : List Call)
    (hcalls : calls.countP Call.isSubmit ≤ 2 ^ 31) :
    let events := history call (ctor initialCapacity) calls
    let w := events.foldl Effort.record {}
    let b := final call (ctor initialCapacity) calls
    (∀ e ∈ events, e.after.Fits) ∧
    w.trades + b.totalOrders + w.withdrawn ≤ w.accepted ∧
    w.accepted ≤ calls.countP Call.isSubmit ∧
    b.totalOrders ≤ w.peak ∧ w.peak ≤ w.accepted ∧
    initialCapacity ≤ b.poolCapacity ∧
    b.poolCapacity ≤ max (if initialCapacity = 0 then 1024 else initialCapacity) (2 * w.peak - 2) := by
  obtain ⟨hfit, haccepted, hpaid⟩ := Paid.of_history hn hcalls
  exact ⟨hfit, hpaid.trades, haccepted, hpaid.peak.1, hpaid.peak.2, hpaid.atLeast, hpaid.capacity⟩

theorem effort_bounded_tradingDay :
    let w := (history call (ctor 1) tradingDay).foldl Effort.record {}
    w = ⟨8, 3, 2, 3⟩ ∧ (final call (ctor 1) tradingDay).totalOrders = 2 ∧
      w.trades + (final call (ctor 1) tradingDay).totalOrders + w.withdrawn ≤ w.accepted :=
  ⟨by decide, by decide, (effort_bounded 1 (by decide) tradingDay (by decide)).2.1⟩

end PoolOrderBook

end Titan
