import Titan.Engine.Fill
import Titan.Engine.Run
import Mathlib.Data.List.TakeWhile

/-! What an accepted submission does, read off the level queues before and after it. -/

namespace Titan
open Schemes

/-! ### The two sides of an accepted submission -/

namespace Book
variable {k : Book} {o : Order}

theorem accept_opp (k : Book) (o : Order) : k.accept o o.side.opp = (k.fillOf o).rest := by
  rw [accept]
  split_ifs
  · rw [rest, setSide_opp, setSide_self]
  · rw [setSide_self]

theorem accept_own (k : Book) (o : Order) : k.accept o o.side =
    if (k.fillOf o).left ≠ 0 ∧ o.type = .limit
    then place o.side { o with remainingQuantity := (k.fillOf o).left } (k o.side)
    else k o.side := by
  rw [accept]
  split_ifs
  · rw [rest, setSide_self, setSide_of_opp]
  · rw [setSide_of_opp]

/-- The ids on the own side of an accepted submission. -/
theorem id_of_mem_own {x : Order} (hx : x ∈ k.accept o o.side) :
    x ∈ k o.side ∨ x.orderId = o.orderId ∧ (k.fillOf o).left ≠ 0 ∧ o.type = .limit := by
  rw [accept_own] at hx
  split_ifs at hx with h
  · rcases mem_place.mp hx with rfl | hx
    · exact .inr ⟨rfl, h⟩
    · exact .inl hx
  · exact .inl hx

/-- A filled maker leaves the book. -/
theorem find?_of_filled (hk : k.Sane) (ha : k.Accepts o) {full untouched : List Order}
    {last : Partial} (g : Greedy o o.effective (k o.side.opp) (k.fillOf o) full last untouched) :
    ∀ m ∈ full, (k.accept o).find? m.orderId = none := by
  intro m hm
  have hcut : full ++ ((last.map (·.1)).toList ++ untouched ++ beyond o (k o.side.opp)) =
      k o.side.opp := by
    rw [← List.append_assoc, ← List.append_assoc, ← g.makers, reachable_append_beyond]
  have hids := hk.ids_side o.side.opp
  rw [Side.opp_opp, List.map_append, List.nodup_append] at hids
  have hmopp : m ∈ k o.side.opp := by rw [← hcut]; exact List.mem_append_left _ hm
  rw [find?_eq_none_iff]
  intro x hx hid
  rcases (mem_orders _ o.side).mp hx with hx | hx
  · rcases id_of_mem_own hx with hx | ⟨hxo, -⟩
    · exact hids.2.2 _ (List.mem_map_of_mem hmopp) _ (List.mem_map_of_mem hx) hid.symm
    · exact find?_eq_none_iff.mp ha.2.2 m ((k.mem_orders o.side).mpr (.inr hmopp))
        (hid.symm.trans hxo)
  · -- what is left of the other side has other ids
    have hnd := hids.1
    rw [← hcut, List.map_append, List.nodup_append] at hnd
    refine hnd.2.2 _ (List.mem_map_of_mem hm) x.orderId ?_ hid.symm
    rw [accept_opp, g.rest] at hx
    cases last with
    | none => exact List.mem_map_of_mem hx
    | some l =>
      simp only [Option.map_some, Option.toList_some, List.cons_append, List.nil_append,
        List.mem_cons] at hx ⊢
      rcases hx with rfl | hx
      · exact List.mem_map_of_mem (f := (·.orderId)) (List.mem_cons_self (a := l.1))
      · exact List.mem_map_of_mem (List.mem_cons_of_mem _ hx)

end Book

namespace PoolOrderBook
variable {b : PoolOrderBook} {o : Order}

/-- What an accepted submission of `o` does to the pool: it appends the trades `ts` and leaves
    `unfilled`. The makers `full` are filled, the maker `last` is filled in part, and the orders
    `untouched` are within the limit but not needed. -/
structure Submitted (b b' : PoolOrderBook) (o : Order) (ts : List Trade) (unfilled : Quantity)
    (full : List Order) (last : Partial) (untouched : List Order) : Prop where
  makers : reachable o (b.resting o.side.opp) = full ++ (last.map (·.1)).toList ++ untouched
  /-- The cut is the incoming limit. -/
  limit : (∀ m ∈ reachable o (b.resting o.side.opp), o.Reaches m.price) ∧
    ∀ m ∈ beyond o (b.resting o.side.opp), ¬ o.Reaches m.price
  /-- No maker twice. -/
  once : ((full ++ (last.map (·.1)).toList).map (·.orderId)).Nodup
  trades : ts = full.map (fun m => o.trade m m.remainingQuantity) ++
    (last.map fun m => o.trade m.1 m.2).toList
  positive : ∀ t ∈ ts, t.quantity ≠ 0
  filled : ∀ m ∈ full, b'.getOrder m.orderId = none
  notFilled : ∀ m ∈ last, m.2 < m.1.remainingQuantity
  traded : Titan.traded ts = min o.effective.toNat (total (reachable o (b.resting o.side.opp)))
  remainder : Titan.traded ts + unfilled.toNat = o.effective.toNat
  opposite : b'.resting o.side.opp = (last.map fun m =>
    { m.1 with remainingQuantity := m.1.remainingQuantity - m.2 }).toList ++ untouched ++
      beyond o (b.resting o.side.opp)
  /-- The remainder of a limit order joins its own level as the last order. -/
  rested : o.type = .limit → unfilled ≠ 0 → ∀ p, b'.levelOrders o.side p =
    b.levelOrders o.side p ++ if o.price = p then [{ o with remainingQuantity := unfilled }] else []
  /-- The remainder of a market order is gone. -/
  discarded : o.type = .market ∨ unfilled = 0 →
    b'.resting o.side = b.resting o.side ∧ b'.getOrder o.orderId = none

/-- An accepted submission fills greedily along the other side; only the remainder of a limit order
    stays. -/
theorem submitOrder_submitted (h : b.Reachable) (o : Order) (outTrades : List Trade)
    (hacc : (b.submitOrder o outTrades).1 = true)
    (hfit : (b.submitOrder o outTrades).2.2.Fits) : ∃ ts unfilled full last untouched,
      (b.submitOrder o outTrades).2.1 = outTrades ++ ts ∧
      Submitted b (b.submitOrder o outTrades).2.2 o ts unfilled full last untouched := by
  obtain ⟨hinv, hsane⟩ := h.good
  have ha := (submitOrder_flag hinv o outTrades).mp hacc
  obtain ⟨hinv', hts, hbook⟩ := submitOrder_accepted hinv ha hfit
  set b' := (b.submitOrder o outTrades).2.2
  obtain ⟨full, last, untouched, g⟩ := fill_greedy o o.effective (b.book o.side.opp) fun m hm =>
    (hsane.orders _ m hm).2.2.2.2
  have hown := b.book.accept_own o
  have hsub : (full ++ (last.map (·.1)).toList).Sublist (b.book o.side.opp) := by
    have hr : (reachable o (b.book o.side.opp)).Sublist (b.book o.side.opp) :=
      List.takeWhile_sublist _
    rw [g.makers] at hr
    exact (List.sublist_append_left ..).trans hr
  refine ⟨_, (b.book.fillOf o).left, full, last, untouched, hts, ?_⟩
  refine ⟨g.makers, ⟨fun m hm => ?_, not_reaches_of_mem_beyond o (hsane.sorted _)⟩, ?_, g.trades,
    g.positive, ?_, fun m hm => (g.last_pos m hm).2, g.traded, traded_add_left .., ?_, ?_, ?_⟩
  · simpa using List.mem_takeWhile_imp hm
  · have hids := (List.nodup_append.mp
      (by simpa only [List.map_append] using hsane.ids_side o.side.opp)).1
    exact hids.sublist (hsub.map _)
  · intro m hm
    rw [hinv'.getOrder_eq, hbook]
    exact Book.find?_of_filled hsane ha g m hm
  · show b'.book o.side.opp = _
    rw [hbook, Book.accept_opp]
    exact g.rest
  · intro hl hu p
    rw [hinv'.shape.levelOrders_eq, hinv.shape.levelOrders_eq, hbook, Book.queueAt, hown,
      if_pos ⟨hu, hl⟩]
    exact filter_place (hsane.sorted _) p
  · intro hd
    have hno : ¬ ((b.book.fillOf o).left ≠ 0 ∧ o.type = .limit) := by
      rintro ⟨hu, hl⟩
      rcases hd with hm | h0
      · rw [hl] at hm; cases hm
      · exact hu h0
    rw [if_neg hno] at hown
    refine ⟨?_, ?_⟩
    · show b'.book o.side = _
      rw [hbook, hown]
      rfl
    · rw [hinv'.getOrder_eq, hbook, Book.accept, if_neg hno]
      exact Book.find?_fill_none ha.2.2

theorem submitOrder_submitted_close :
    let o : Order := { orderId := 8, price := 99, initialQuantity := 12, side := .sell }
    ∃ ts unfilled full last untouched, (tradingDayClose.submitOrder o []).2.1 = [] ++ ts ∧
      Submitted tradingDayClose (tradingDayClose.submitOrder o []).2.2 o ts unfilled full last
        untouched :=
  submitOrder_submitted tradingDayClose_reachable _ [] (by decide) (by decide)

end PoolOrderBook

end Titan
