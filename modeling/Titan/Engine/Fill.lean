import Titan.Engine.Book

/-! The greedy fill, seen from three sides.

    By makers: a prefix of the reachable orders, all filled but possibly the last. By price: each
    price trades what is left of the quantity once all better prices are used up. By maker id: what an
    order trades is what it loses. -/

namespace Titan

namespace Order

/-- A price that is no worse than a reachable one is reachable. -/
theorem Reaches.of_not_better {o : Order} {p r : Price} (h : o.Reaches p)
    (hb : ¬ better o.side.opp p r) : o.Reaches r := by
  by_contra hr
  rw [not_reaches] at hr
  refine h ⟨hr.1, ?_⟩
  rcases trichotomous_of (better o.side.opp) p r with hlt | rfl | hgt
  · exact absurd hlt hb
  · exact hr.2
  · exact better_trans hr.2 hgt

end Order

section Makers
variable (o : Order)

/-- The resting orders that the incoming order can trade with, in priority order. -/
def reachable (L : List Order) : List Order := L.takeWhile fun m => o.Reaches m.price

/-- The orders from the first one beyond the limit on. -/
def beyond (L : List Order) : List Order := L.dropWhile fun m => o.Reaches m.price

theorem reachable_append_beyond (L : List Order) : reachable o L ++ beyond o L = L :=
  List.takeWhile_append_dropWhile

/-- The last maker of a fill, when it stays in the book: the maker and what it trades. -/
abbrev Partial := Option (Order × Quantity)

/-- What the fill of quantity `q` along `L` is: the makers `full` are filled completely, the maker
    `last` in part, and nothing behind them is touched. -/
structure Greedy (q : Quantity) (L : List Order) (f : Fill) (full : List Order) (last : Partial)
    (untouched : List Order) : Prop where
  makers : reachable o L = full ++ (last.map (·.1)).toList ++ untouched
  trades : f.trades = full.map (fun m => o.trade m m.remainingQuantity) ++
    (last.map fun m => o.trade m.1 m.2).toList
  full_pos : ∀ m ∈ full, m.remainingQuantity ≠ 0
  last_pos : ∀ m ∈ last, m.2 ≠ 0 ∧ m.2 < m.1.remainingQuantity
  traded : traded f.trades = min q.toNat (total (reachable o L))
  left : f.left.toNat = q.toNat - total (reachable o L)
  rest : f.rest = (last.map fun m =>
    { m.1 with remainingQuantity := m.1.remainingQuantity - m.2 }).toList ++ untouched ++ beyond o L

theorem reachable_cons {m : Order} {L : List Order} (h : o.Reaches m.price) :
    reachable o (m :: L) = m :: reachable o L := by
  rw [reachable, List.takeWhile_cons_of_pos (by simpa using h), reachable]

theorem beyond_cons {m : Order} {L : List Order} (h : o.Reaches m.price) :
    beyond o (m :: L) = beyond o L := by
  rw [beyond, List.dropWhile_cons_of_pos (by simpa using h), beyond]

/-- Nothing is filled: there is no quantity, or no maker within the limit. -/
theorem Greedy.nothing {q : Quantity} {L : List Order} (h : q = 0 ∨ reachable o L = []) :
    Greedy o q L ⟨[], q, L⟩ [] none (reachable o L) where
  makers := by simp
  trades := rfl
  full_pos m hm := nomatch hm
  last_pos m hm := nomatch hm
  traded := by
    rcases h with rfl | h
    · simp
    · simp [h]
  left := by
    rcases h with rfl | h
    · simp
    · simp [h]
  rest := (reachable_append_beyond o L).symm

/-- Trades have quantities. -/
theorem Greedy.positive {q : Quantity} {L : List Order} {f : Fill} {full : List Order}
    {last : Partial} {untouched : List Order} (g : Greedy o q L f full last untouched) :
    ∀ t ∈ f.trades, t.quantity ≠ 0 := by
  intro t ht
  rw [g.trades, List.mem_append] at ht
  rcases ht with ht | ht
  · obtain ⟨m, hm, rfl⟩ := List.mem_map.mp ht
    exact g.full_pos m hm
  · obtain ⟨m, hm, rfl⟩ : ∃ m ∈ last, o.trade m.1 m.2 = t := by simpa using ht
    exact (g.last_pos m hm).1

theorem fill_greedy : ∀ (q : Quantity) (L : List Order), (∀ m ∈ L, m.remainingQuantity ≠ 0) →
    ∃ full last untouched, Greedy o q L (fill o q L) full last untouched
  | q, [], _ => ⟨_, _, _, .nothing o (.inr rfl)⟩
  | q, m :: ms, hpos => by
    by_cases h1 : q = 0 ∨ ¬ o.Reaches m.price
    · rw [fill_stop o h1]
      refine ⟨_, _, _, .nothing o (h1.imp_right fun hr => ?_)⟩
      rw [reachable, List.takeWhile_cons_of_neg (by simpa using hr)]
    have hr : o.Reaches m.price := by tauto
    by_cases h2 : m.remainingQuantity ≤ q
    · -- the first maker is filled, the rest is by induction
      obtain ⟨full, last, untouched, g⟩ := fill_greedy (q - m.remainingQuantity) ms
        fun x hx => hpos x (List.mem_cons_of_mem _ hx)
      have hq := UInt32.toNat_sub_of_le _ _ h2
      have hle := UInt32.le_iff_toNat_le.mp h2
      rw [fill_full o h1 h2]
      refine ⟨m :: full, last, untouched, ?_, ?_, ?_, g.last_pos, ?_, ?_, ?_⟩
      · rw [reachable_cons o hr, g.makers]; rfl
      · rw [g.trades]; rfl
      · exact List.forall_mem_cons.mpr ⟨hpos m (List.mem_cons_self ..), g.full_pos⟩
      · rw [reachable_cons o hr, traded_cons, total_cons, g.traded, hq, Order.trade_quantity]
        omega
      · rw [reachable_cons o hr, total_cons, g.left, hq]; omega
      · rw [beyond_cons o hr, g.rest]
    · -- the first maker takes it all
      have hlt : q < m.remainingQuantity := UInt32.not_le.mp h2
      have hlt' := UInt32.lt_iff_toNat_lt.mp hlt
      rw [fill_part o h1 h2]
      refine ⟨[], some (m, q), reachable o ms, ?_, rfl, ?_, ?_, ?_, ?_, ?_⟩
      · rw [reachable_cons o hr]; rfl
      · intro x hx; cases hx
      · intro x hx
        cases hx
        exact ⟨by tauto, hlt⟩
      · rw [reachable_cons o hr, traded_cons, traded_nil, total_cons, Order.trade_quantity]
        omega
      · rw [reachable_cons o hr, total_cons, UInt32.toNat_zero]
        omega
      · rw [beyond_cons o hr, List.append_assoc, reachable_append_beyond]
        rfl

theorem fill_trades_eq_nil_iff {q : Quantity} {L : List Order}
    (hpos : ∀ m ∈ L, m.remainingQuantity ≠ 0) :
    (fill o q L).trades = [] ↔ traded (fill o q L).trades = 0 := by
  refine ⟨fun h => by rw [h, traded_nil], fun h => ?_⟩
  obtain ⟨full, last, untouched, g⟩ := fill_greedy o q L hpos
  rw [traded, List.sum_eq_zero_iff] at h
  refine List.eq_nil_iff_forall_not_mem.mpr fun t ht => ?_
  have h0 : t.quantity.toNat = 0 := h _ (List.mem_map_of_mem ht)
  exact g.positive o t ht (UInt32.toNat_inj.mp h0)

/-- With the list in price order, everything from the cut on is beyond the limit. -/
theorem not_reaches_of_mem_beyond {L : List Order}
    (hs : L.Pairwise fun x y => ¬ better o.side.opp y.price x.price) :
    ∀ m ∈ beyond o L, ¬ o.Reaches m.price := by
  intro m hm hr
  have hs' := hs.sublist (List.dropWhile_sublist (l := L) fun m => decide (o.Reaches m.price))
  cases hb : beyond o L with
  | nil => rw [hb] at hm; cases hm
  | cons x xs =>
    have hx : ¬ o.Reaches x.price := by
      have := List.head?_dropWhile_not (fun m => decide (o.Reaches m.price)) L
      rw [show L.dropWhile (fun m => decide (o.Reaches m.price)) = x :: xs from hb] at this
      simpa using this
    rw [show L.dropWhile (fun m => decide (o.Reaches m.price)) = x :: xs from hb] at hs'
    rw [hb] at hm
    rcases List.mem_cons.mp hm with rfl | hm
    · exact hx hr
    · exact hx (hr.of_not_better ((List.pairwise_cons.mp hs').1 m hm))

end Makers

/-! ### By price -/

/-- Exact quantity resting at price `p` in a list. -/
def depthAt (L : List Order) (p : Price) : ℕ := total (L.filter fun m => m.price = p)

/-- Exact quantity resting at prices of side `s` better than `p`. -/
def ahead (s : Side) (L : List Order) (p : Price) : ℕ :=
  total (L.filter fun m => better s m.price p)

/-- Exact quantity traded at price `p`. -/
def tradedAt (ts : List Trade) (p : Price) : ℕ := traded (ts.filter fun t => t.price = p)

section Price
variable (o : Order)

theorem depthAt_cons (m : Order) (L : List Order) (p : Price) : depthAt (m :: L) p =
    (if m.price = p then m.remainingQuantity.toNat else 0) + depthAt L p := by
  rw [depthAt, List.filter_cons]
  split_ifs with h1 h2 h2 <;> simp_all [depthAt]

theorem ahead_cons (s : Side) (m : Order) (L : List Order) (p : Price) : ahead s (m :: L) p =
    (if better s m.price p then m.remainingQuantity.toNat else 0) + ahead s L p := by
  rw [ahead, List.filter_cons]
  split_ifs with h1 h2 h2 <;> simp_all [ahead]

theorem tradedAt_cons (t : Trade) (ts : List Trade) (p : Price) : tradedAt (t :: ts) p =
    (if t.price = p then t.quantity.toNat else 0) + tradedAt ts p := by
  rw [tradedAt, List.filter_cons]
  split_ifs with h1 h2 h2 <;> simp_all [tradedAt]

theorem depthAt_eq_zero {L : List Order} {p : Price} (h : ∀ m ∈ L, m.price ≠ p) :
    depthAt L p = 0 := by
  rw [depthAt, List.filter_eq_nil_iff.mpr (by simpa using h), total_nil]

theorem ahead_eq_zero {s : Side} {L : List Order} {p : Price}
    (h : ∀ m ∈ L, ¬ better s m.price p) : ahead s L p = 0 := by
  rw [ahead, List.filter_eq_nil_iff.mpr (by simpa using h), total_nil]

/-- What a price trades is what its orders lose. -/
theorem tradedAt_add_depthAt (p : Price) : ∀ (q : Quantity) (L : List Order),
    tradedAt (fill o q L).trades p + depthAt (fill o q L).rest p = depthAt L p
  | q, [] => by simp [fill, tradedAt, depthAt]
  | q, m :: ms => by
    by_cases h1 : q = 0 ∨ ¬ o.Reaches m.price
    · simp [fill_stop o h1, tradedAt]
    by_cases h2 : m.remainingQuantity ≤ q
    · have ih := tradedAt_add_depthAt p (q - m.remainingQuantity) ms
      rw [fill_full o h1 h2, tradedAt_cons, depthAt_cons, Order.trade_price, Order.trade_quantity]
      dsimp only
      omega
    · have hle : q ≤ m.remainingQuantity := UInt32.le_of_lt (UInt32.not_le.mp h2)
      have := UInt32.le_iff_toNat_le.mp hle
      rw [fill_part o h1 h2, tradedAt_cons, depthAt_cons, depthAt_cons, Order.trade_price,
        Order.trade_quantity, UInt32.toNat_sub_of_le _ _ hle, tradedAt, List.filter_nil, traded_nil]
      split_ifs <;> omega

/-- Each price trades what is left of the quantity once the better prices are used up. -/
theorem tradedAt_eq (p : Price) : ∀ (q : Quantity) (L : List Order),
    L.Pairwise (fun x y => ¬ better o.side.opp y.price x.price) → o.Reaches p →
    tradedAt (fill o q L).trades p = min (depthAt L p) (q.toNat - ahead o.side.opp L p)
  | q, [], _, _ => by simp [fill, tradedAt, depthAt]
  | q, m :: ms, hs, hr => by
    obtain ⟨hm, hms⟩ := List.pairwise_cons.mp hs
    have ih := tradedAt_eq p (q - m.remainingQuantity) ms hms hr
    rcases trichotomous_of (better o.side.opp) p m.price with hb | rfl | hb
    · -- better than the first order: nothing rests there
      have hnone : depthAt (m :: ms) p = 0 := by
        refine depthAt_eq_zero (List.forall_mem_cons.mpr ⟨?_, fun x hx => ?_⟩)
        · rintro rfl; exact better_irrefl _ _ hb
        · rintro rfl; exact hm x hx hb
      have := tradedAt_add_depthAt o p q (m :: ms)
      omega
    · -- the price of the first order: nothing is ahead of it
      have hah : ahead o.side.opp (m :: ms) m.price = 0 :=
        ahead_eq_zero (List.forall_mem_cons.mpr ⟨better_irrefl _ _, hm⟩)
      rw [ahead_eq_zero hm] at ih
      rw [hah]
      by_cases h1 : q = 0 ∨ ¬ o.Reaches m.price
      · have h0 : q = 0 := h1.resolve_right (not_not.mpr hr)
        rw [fill_stop o h1, h0]
        simp [tradedAt]
      by_cases h2 : m.remainingQuantity ≤ q
      · have := UInt32.le_iff_toNat_le.mp h2
        rw [UInt32.toNat_sub_of_le _ _ h2] at ih
        rw [fill_full o h1 h2, tradedAt_cons, depthAt_cons, ih, Order.trade_price,
          Order.trade_quantity, if_pos rfl]
        omega
      · have := UInt32.lt_iff_toNat_lt.mp (UInt32.not_le.mp h2)
        rw [fill_part o h1 h2, tradedAt_cons, depthAt_cons, Order.trade_price,
          Order.trade_quantity, if_pos rfl, if_pos rfl, tradedAt, List.filter_nil, traded_nil]
        omega
    · -- worse than the first order, which comes before it
      have hne : m.price ≠ p := by rintro rfl; exact better_irrefl _ _ hb
      have hrm : o.Reaches m.price := hr.of_not_better (better_asymm hb)
      rw [depthAt_cons, ahead_cons, if_neg hne, if_pos hb]
      by_cases h1 : q = 0 ∨ ¬ o.Reaches m.price
      · have h0 : q = 0 := h1.resolve_right (not_not.mpr hrm)
        rw [fill_stop o h1, h0]
        simp [tradedAt]
      by_cases h2 : m.remainingQuantity ≤ q
      · rw [UInt32.toNat_sub_of_le _ _ h2] at ih
        rw [fill_full o h1 h2, tradedAt_cons, ih, Order.trade_price, if_neg hne]
        omega
      · have := UInt32.lt_iff_toNat_lt.mp (UInt32.not_le.mp h2)
        rw [fill_part o h1 h2, tradedAt_cons, Order.trade_price, if_neg hne, tradedAt,
          List.filter_nil, traded_nil]
        omega

/-- Prices beyond the limit do not trade. -/
theorem tradedAt_of_not_reaches {p : Price} (hr : ¬ o.Reaches p) : ∀ (q : Quantity)
    (L : List Order), tradedAt (fill o q L).trades p = 0
  | q, [] => by simp [fill, tradedAt]
  | q, m :: ms => by
    by_cases h1 : q = 0 ∨ ¬ o.Reaches m.price
    · simp [fill_stop o h1, tradedAt]
    have hne : m.price ≠ p := by rintro rfl; tauto
    by_cases h2 : m.remainingQuantity ≤ q
    · rw [fill_full o h1 h2, tradedAt_cons, Order.trade_price, if_neg hne, Nat.zero_add]
      exact tradedAt_of_not_reaches hr _ ms
    · rw [fill_part o h1 h2, tradedAt_cons, Order.trade_price, if_neg hne]
      rfl

end Price

/-! ### By maker -/

/-- Exact quantity resting under an id in a list. -/
def heldBy (L : List Order) (id : OrderId) : ℕ := total (L.filter fun m => m.orderId = id)

/-- Exact quantity traded by the maker `id`. -/
def soldBy (ts : List Trade) (id : OrderId) : ℕ := traded (ts.filter fun t => t.makerOrderId = id)

theorem heldBy_cons (m : Order) (L : List Order) (id : OrderId) : heldBy (m :: L) id =
    (if m.orderId = id then m.remainingQuantity.toNat else 0) + heldBy L id := by
  rw [heldBy, List.filter_cons]
  split_ifs with h1 h2 h2 <;> simp_all [heldBy]

theorem soldBy_cons (t : Trade) (ts : List Trade) (id : OrderId) : soldBy (t :: ts) id =
    (if t.makerOrderId = id then t.quantity.toNat else 0) + soldBy ts id := by
  rw [soldBy, List.filter_cons]
  split_ifs with h1 h2 h2 <;> simp_all [soldBy]

/-- What a maker trades is what it loses. -/
theorem soldBy_add_heldBy (o : Order) (id : OrderId) : ∀ (q : Quantity) (L : List Order),
    soldBy (fill o q L).trades id + heldBy (fill o q L).rest id = heldBy L id
  | q, [] => by simp [fill, soldBy, heldBy]
  | q, m :: ms => by
    by_cases h1 : q = 0 ∨ ¬ o.Reaches m.price
    · simp [fill_stop o h1, soldBy]
    by_cases h2 : m.remainingQuantity ≤ q
    · have ih := soldBy_add_heldBy o id (q - m.remainingQuantity) ms
      rw [fill_full o h1 h2, soldBy_cons, heldBy_cons, Order.trade_makerOrderId,
        Order.trade_quantity]
      dsimp only
      omega
    · have hle : q ≤ m.remainingQuantity := UInt32.le_of_lt (UInt32.not_le.mp h2)
      have := UInt32.le_iff_toNat_le.mp hle
      rw [fill_part o h1 h2, soldBy_cons, heldBy_cons, heldBy_cons, Order.trade_makerOrderId,
        Order.trade_quantity, UInt32.toNat_sub_of_le _ _ hle, soldBy, List.filter_nil, traded_nil]
      split_ifs <;> omega

end Titan
