import Titan.Schemes.Exchange
import Titan.Engine.PoolSpec

/-! Best execution.

    The quantity of a submission could be spread over the reachable makers in many ways. The way of
    the engine trades as much as any, and of those that trade as much none buys cheaper or sells
    dearer. -/

namespace Titan
open Schemes

/-- How much is to be taken from the maker of each id. -/
abbrev Shares := OrderId → ℕ

/-- What the shares take from the orders of a list. -/
def Shares.amount (x : Shares) (L : List Order) : ℕ := (L.map fun m => x m.orderId).sum

/-- What the shares cost, each at the price of its maker. -/
def Shares.cost (x : Shares) (L : List Order) : ℕ :=
  (L.map fun m => m.price.toNat * x m.orderId).sum

/-- What a list of trades costs. -/
def costOf (ts : List Trade) : ℕ := (ts.map fun t => t.price.toNat * t.quantity.toNat).sum

/-- The shares could be the trades of the submission `o` with makers `L`: no maker gives more than it
    has, none beyond the limit gives anything, and no more is taken than asked for. -/
structure Shares.Feasible (x : Shares) (o : Order) (L : List Order) : Prop where
  has : ∀ m ∈ L, x m.orderId ≤ m.remainingQuantity.toNat
  within : ∀ m ∈ L, ¬ o.Reaches m.price → x m.orderId = 0
  asked : x.amount L ≤ o.effective.toNat

section Held
variable {L L' : List Order} {m : Order} {id : OrderId}

theorem heldBy_of_notMem (h : id ∉ L.map (·.orderId)) : heldBy L id = 0 := by
  rw [heldBy, List.filter_eq_nil_iff.mpr, total_nil]
  intro x hx
  simp only [decide_eq_true_eq]
  rintro rfl
  exact h (List.mem_map_of_mem hx)

theorem id_ne_of_nodup {x : Order} (hids : ((x :: L).map (·.orderId)).Nodup) (hm : m ∈ L) :
    x.orderId ≠ m.orderId := fun heq =>
  (List.nodup_cons.mp hids).1 (List.mem_map.mpr ⟨m, hm, heq.symm⟩)

/-- An id that is there once holds what its order holds. -/
theorem heldBy_of_mem (hids : (L.map (·.orderId)).Nodup) (hm : m ∈ L) :
    heldBy L m.orderId = m.remainingQuantity.toNat := by
  induction L with
  | nil => cases hm
  | cons x xs ih =>
    obtain ⟨hx, hxs⟩ := List.nodup_cons.mp hids
    rw [heldBy_cons]
    rcases List.mem_cons.mp hm with rfl | hm
    · rw [if_pos rfl, heldBy_of_notMem hx, Nat.add_zero]
    · rw [if_neg (id_ne_of_nodup hids hm), ih hxs hm, Nat.zero_add]

/-- A sum over orders that only the order of one id contributes to. -/
theorem sum_of_id (hids : (L.map (·.orderId)).Nodup) (hm : m ∈ L) (f : Order → ℕ) :
    (L.map fun x => if m.orderId = x.orderId then f x else 0).sum = f m := by
  induction L with
  | nil => cases hm
  | cons x xs ih =>
    obtain ⟨hx, hxs⟩ := List.nodup_cons.mp hids
    rw [List.map_cons, List.sum_cons]
    rcases List.mem_cons.mp hm with rfl | hm
    · have hzero : (xs.map fun x => if m.orderId = x.orderId then f x else 0).sum = 0 := by
        refine List.sum_eq_zero_iff.mpr fun c hc => ?_
        obtain ⟨y, hy, rfl⟩ := List.mem_map.mp hc
        exact if_neg (id_ne_of_nodup hids hy)
      rw [if_pos rfl, hzero, Nat.add_zero]
    · rw [if_neg (id_ne_of_nodup hids hm).symm, ih hxs hm, Nat.zero_add]

/-- The trades with makers of the list take what they trade, at its price. -/
theorem amount_soldBy {ts : List Trade} (hids : (L.map (·.orderId)).Nodup)
    (hmakers : ∀ t ∈ ts, ∃ m ∈ L, t.makerOrderId = m.orderId ∧ t.price = m.price) :
    Shares.amount (soldBy ts) L = traded ts ∧ Shares.cost (soldBy ts) L = costOf ts := by
  induction ts with
  | nil => simp [Shares.amount, Shares.cost, soldBy, costOf]
  | cons t ts ih =>
    obtain ⟨⟨m, hm, hid, hprice⟩, hts⟩ := List.forall_mem_cons.mp hmakers
    obtain ⟨hamount, hcost⟩ := ih hts
    rw [Shares.amount] at hamount
    rw [Shares.cost] at hcost
    refine ⟨?_, ?_⟩
    · have hone := sum_of_id hids hm fun _ => t.quantity.toNat
      simp only [Shares.amount, soldBy_cons, hid, List.sum_map_add, hone, hamount, traded_cons]
    · have hone := sum_of_id hids hm fun x => x.price.toNat * t.quantity.toNat
      simp only [Shares.cost, soldBy_cons, hid, mul_add, mul_ite, mul_zero, List.sum_map_add, hone,
        hcost, ← hprice, costOf, List.map_cons, List.sum_cons]

end Held

section Greedy
variable {o : Order} {q : Quantity} {L : List Order} {f : Fill} {full untouched : List Order}
  {last : Partial}

/-- The makers of a greedy fill, in the order of the list. -/
theorem Greedy.split (g : Greedy o q L f full last untouched) :
    L = full ++ ((last.map (·.1)).toList ++ (untouched ++ beyond o L)) := by
  rw [← List.append_assoc, ← List.append_assoc, ← g.makers, reachable_append_beyond]

theorem Greedy.mem_trades (g : Greedy o q L f full last untouched) {t : Trade} (ht : t ∈ f.trades) :
    ∃ m ∈ L, t.makerOrderId = m.orderId ∧ t.price = m.price := by
  rw [g.trades, List.mem_append] at ht
  rw [g.split]
  rcases ht with ht | ht
  · obtain ⟨m, hm, rfl⟩ := List.mem_map.mp ht
    exact ⟨m, List.mem_append_left _ hm, rfl, rfl⟩
  · cases last with
    | none => cases ht
    | some l =>
      obtain rfl : t = o.trade l.1 l.2 := by simpa using ht
      exact ⟨l.1, by simp, rfl, rfl⟩

/-- A maker that is filled sells all that it has. -/
theorem Greedy.soldBy_full (g : Greedy o q L (fill o q L) full last untouched)
    (hids : (L.map (·.orderId)).Nodup) {m : Order} (hm : m ∈ full) :
    soldBy (fill o q L).trades m.orderId = m.remainingQuantity.toNat := by
  have hL : m ∈ L := by
    rw [g.split]
    exact List.mem_append_left _ hm
  have hnone : m.orderId ∉ (fill o q L).rest.map (·.orderId) := by
    have hnd := hids
    rw [g.split, List.map_append, List.nodup_append] at hnd
    intro hrest
    refine hnd.2.2 _ (List.mem_map_of_mem hm) _ ?_ rfl
    rw [g.rest] at hrest
    cases last with
    | none => simpa using hrest
    | some l => simpa using hrest
  have hadd := soldBy_add_heldBy o m.orderId q L
  rw [heldBy_of_mem hids hL, heldBy_of_notMem hnone] at hadd
  omega

/-- A maker behind the last trade sells nothing. -/
theorem Greedy.soldBy_behind (g : Greedy o q L (fill o q L) full last untouched)
    (hids : (L.map (·.orderId)).Nodup) {m : Order} (hm : m ∈ untouched ++ beyond o L) :
    soldBy (fill o q L).trades m.orderId = 0 := by
  have hL : m ∈ L := by
    rw [g.split]
    exact List.mem_append_right _ (List.mem_append_right _ hm)
  have hrest : m ∈ (fill o q L).rest := by
    rw [g.rest, List.append_assoc]
    exact List.mem_append_right _ hm
  have hnd : ((fill o q L).rest.map (·.orderId)).Nodup := by
    have hcore : (fill o q L).rest.map (·.orderId) =
        ((fill o q L).rest.map Order.core).map (·.orderId) := by
      rw [List.map_map]
      rfl
    have hids' : ((L.map Order.core).map (·.orderId)).Nodup := by
      rw [List.map_map]
      exact hids
    rw [hcore]
    exact hids'.sublist ((rest_suffix o q L).sublist.map _)
  have hadd := soldBy_add_heldBy o m.orderId q L
  rw [heldBy_of_mem hids hL, heldBy_of_mem hnd hrest] at hadd
  omega

/-- Of two makers of which the second one trades and the first one could trade more, the second one
    comes first or they are the same. -/
theorem Greedy.not_before (g : Greedy o q L (fill o q L) full last untouched)
    (hids : (L.map (·.orderId)).Nodup) {R : Order → Order → Prop} (hR : ∀ m, R m m)
    (hsort : L.Pairwise R) {m m' : Order} (hm : m ∈ L) (hm' : m' ∈ L)
    (hmore : soldBy (fill o q L).trades m.orderId < m.remainingQuantity.toNat)
    (hsold : 0 < soldBy (fill o q L).trades m'.orderId) : R m' m := by
  have hnf : m ∉ full := fun h => by
    rw [g.soldBy_full hids h] at hmore
    exact lt_irrefl _ hmore
  have hnb : m' ∉ untouched ++ beyond o L := fun h => by
    rw [g.soldBy_behind hids h] at hsold
    exact lt_irrefl _ hsold
  rw [g.split] at hm hm' hsort
  obtain ⟨-, htail, hcross⟩ := List.pairwise_append.mp hsort
  obtain ⟨-, -, hcross'⟩ := List.pairwise_append.mp htail
  have hmt := (List.mem_append.mp hm).resolve_left hnf
  rcases List.mem_append.mp hm' with hf' | ht'
  · exact hcross m' hf' m hmt
  · have hl' := (List.mem_append.mp ht').resolve_right hnb
    rcases List.mem_append.mp hmt with hl | hb
    · -- there is one last maker at most
      cases last with
      | none => cases hl
      | some l =>
        obtain rfl : m = l.1 := by simpa using hl
        obtain rfl : m' = l.1 := by simpa using hl'
        exact hR _
    · exact hcross' m' hl' m hb

end Greedy

/-- What a list of shares takes and costs, as sums over the set of makers. -/
theorem Shares.sums {L : List Order} (hL : L.Nodup) (x : Shares) :
    ((x.amount L : ℕ) : ℤ) = ∑ m ∈ L.toFinset, (x m.orderId : ℤ) ∧
    ((x.cost L : ℕ) : ℤ) = ∑ m ∈ L.toFinset, (m.price.toNat : ℤ) * (x m.orderId : ℤ) := by
  rw [amount, cost, ← List.sum_toFinset _ hL, ← List.sum_toFinset _ hL]
  push_cast
  exact ⟨rfl, rfl⟩

section Best
variable {o : Order} {q : Quantity} {L : List Order} {full untouched : List Order} {last : Partial}

/-- No shares within the limit take more than the greedy fill trades. -/
theorem Greedy.amount_le (g : Greedy o o.effective L (fill o o.effective L) full last untouched)
    (hsort : L.Pairwise fun x y => ¬ better o.side.opp y.price x.price) {x : Shares}
    (hx : x.Feasible o L) : x.amount L ≤ Titan.traded (fill o o.effective L).trades := by
  have hreach : Shares.amount x (reachable o L) ≤ total (reachable o L) := by
    rw [Shares.amount, total]
    refine List.sum_le_sum fun m hm => hx.has m ?_
    exact (List.takeWhile_sublist _).subset hm
  have hbeyond : Shares.amount x (beyond o L) = 0 := by
    rw [Shares.amount, List.sum_eq_zero_iff]
    intro c hc
    obtain ⟨m, hm, rfl⟩ := List.mem_map.mp hc
    exact hx.within m ((List.dropWhile_sublist _).subset hm) (not_reaches_of_mem_beyond o hsort m hm)
  have hsplit : x.amount L = Shares.amount x (reachable o L) + Shares.amount x (beyond o L) := by
    have happend := congrArg x.amount (reachable_append_beyond o L)
    rw [← happend, Shares.amount, List.map_append, List.sum_append]
    rfl
  have hasked := hx.asked
  rw [g.traded]
  omega

theorem Greedy.feasible (g : Greedy o o.effective L (fill o o.effective L) full last untouched)
    (hids : (L.map (·.orderId)).Nodup) :
    Shares.Feasible (soldBy (fill o o.effective L).trades) o L where
  has m hm := by
    have hadd := soldBy_add_heldBy o m.orderId o.effective L
    rw [heldBy_of_mem hids hm] at hadd
    omega
  within m hm hno := by
    refine g.soldBy_behind hids (List.mem_append_right _ ?_)
    rw [← reachable_append_beyond o L, List.mem_append] at hm
    refine hm.resolve_left fun hr => hno ?_
    simpa using List.mem_takeWhile_imp hr
  asked := by
    have hsum := traded_add_left o o.effective L
    rw [(amount_soldBy hids fun t ht => g.mem_trades ht).1]
    omega

/-- Of the shares that take as much as the greedy fill trades, none is cheaper to buy or dearer to
    sell. -/
theorem Greedy.cost_best (g : Greedy o o.effective L (fill o o.effective L) full last untouched)
    (hids : (L.map (·.orderId)).Nodup)
    (hsort : L.Pairwise fun x y => ¬ better o.side.opp y.price x.price) {x : Shares}
    (hx : x.Feasible o L) (hall : x.amount L = Titan.traded (fill o o.effective L).trades) :
    (o.side = .buy → costOf (fill o o.effective L).trades ≤ x.cost L) ∧
    (o.side = .sell → x.cost L ≤ costOf (fill o o.effective L).trades) := by
  obtain ⟨hamount, hcost⟩ := amount_soldBy hids fun t ht => g.mem_trades ht
  obtain ⟨hg₁, hg₂⟩ := Shares.sums hids.of_map (soldBy (fill o o.effective L).trades)
  obtain ⟨hx₁, hx₂⟩ := Shares.sums hids.of_map x
  have hsum : ∑ m ∈ L.toFinset, (soldBy (fill o o.effective L).trades m.orderId : ℤ) =
      ∑ m ∈ L.toFinset, (x m.orderId : ℤ) := by
    rw [← hg₁, ← hx₁, hamount, hall]
  -- what is taken more of is no better priced than what is taken less of
  have hexchange : ∀ i ∈ L.toFinset, ∀ j ∈ L.toFinset,
      (soldBy (fill o o.effective L).trades i.orderId : ℤ) < x i.orderId →
      (x j.orderId : ℤ) < soldBy (fill o o.effective L).trades j.orderId →
      ¬ better o.side.opp i.price j.price := by
    intro i hi j hj hmore hless
    rw [List.mem_toFinset] at hi hj
    have hhas := hx.has i hi
    exact g.not_before hids (fun m => better_irrefl _ _) hsort hi hj (by omega) (by omega)
  refine ⟨fun hs => ?_, fun hs => ?_⟩
  · rw [← hcost, ← Int.ofNat_le, hg₂, hx₂]
    refine cost_le_of_exchange hsum fun i hi j hj hmore hless => ?_
    have hno := hexchange i hi j hj hmore hless
    rw [hs] at hno
    have hle : j.price ≤ i.price := UInt64.not_lt.mp hno
    exact_mod_cast UInt64.le_iff_toNat_le.mp hle
  · rw [← hcost, ← Int.ofNat_le, hg₂, hx₂]
    refine le_cost_of_exchange hsum fun i hi j hj hmore hless => ?_
    have hno := hexchange i hi j hj hmore hless
    rw [hs] at hno
    have hle : i.price ≤ j.price := UInt64.not_lt.mp hno
    exact_mod_cast UInt64.le_iff_toNat_le.mp hle

end Best

namespace PoolOrderBook
variable {b : PoolOrderBook}

/-- In every reachable state an accepted submission is executed at its best: its trades are a feasible
    choice of makers, no feasible choice trades more, and of those that trade as much none buys
    cheaper or sells dearer. -/
theorem best_execution (h : b.Reachable) (o : Order) (outTrades : List Trade)
    (hacc : (b.submitOrder o outTrades).1 = true)
    (hfit : (b.submitOrder o outTrades).2.2.Fits) :
    ∃ ts, (b.submitOrder o outTrades).2.1 = outTrades ++ ts ∧
      Shares.Feasible (soldBy ts) o (b.resting o.side.opp) ∧
      Shares.amount (soldBy ts) (b.resting o.side.opp) = traded ts ∧
      Shares.cost (soldBy ts) (b.resting o.side.opp) = costOf ts ∧
      ∀ x : Shares, x.Feasible o (b.resting o.side.opp) →
        x.amount (b.resting o.side.opp) ≤ traded ts ∧
        (x.amount (b.resting o.side.opp) = traded ts →
          (o.side = .buy → costOf ts ≤ x.cost (b.resting o.side.opp)) ∧
          (o.side = .sell → x.cost (b.resting o.side.opp) ≤ costOf ts)) := by
  obtain ⟨hinv, hsane⟩ := h.good
  have ha := (submitOrder_flag hinv o outTrades).mp hacc
  obtain ⟨-, hts, -⟩ := submitOrder_accepted hinv ha hfit
  obtain ⟨full, last, untouched, g⟩ := fill_greedy o o.effective (b.book o.side.opp) fun m hm =>
    (hsane.orders _ m hm).2.2.2.2
  have hids : ((b.book o.side.opp).map (·.orderId)).Nodup :=
    (List.nodup_append.mp (by simpa only [List.map_append] using hsane.ids_side o.side.opp)).1
  have hsort := hsane.sorted o.side.opp
  obtain ⟨hamount, hcost⟩ := amount_soldBy hids fun t ht => g.mem_trades ht
  exact ⟨_, hts, g.feasible hids, hamount, hcost, fun x hx =>
    ⟨g.amount_le hsort hx, g.cost_best hids hsort hx⟩⟩

theorem best_execution_close :
    let o : Order := { orderId := 8, price := 99, initialQuantity := 5, side := .sell }
    ∃ ts, (tradingDayClose.submitOrder o []).2.1 = [] ++ ts ∧
      Shares.Feasible (soldBy ts) o (tradingDayClose.resting .buy) ∧
      Shares.amount (soldBy ts) (tradingDayClose.resting .buy) = traded ts ∧
      Shares.cost (soldBy ts) (tradingDayClose.resting .buy) = costOf ts ∧
      ∀ x : Shares, x.Feasible o (tradingDayClose.resting .buy) →
        x.amount (tradingDayClose.resting .buy) ≤ traded ts ∧
        (x.amount (tradingDayClose.resting .buy) = traded ts →
          x.cost (tradingDayClose.resting .buy) ≤ costOf ts) := by
  intro o
  obtain ⟨ts, hts, hfeasible, hamount, hcost, hbest⟩ :=
    best_execution tradingDayClose_reachable o [] (by decide) (by decide)
  exact ⟨ts, hts, hfeasible, hamount, hcost, fun x hx =>
    ⟨(hbest x hx).1, fun hall => ((hbest x hx).2 hall).2 rfl⟩⟩

end PoolOrderBook

end Titan
