import Titan.Types
import Titan.Schemes.Bag

/-! Generated workloads. -/

namespace Titan
open Schemes

inductive ActionType where | newOrder | cancelOrder
  deriving DecidableEq, Repr

structure OrderAction where
  type : ActionType
  /-- Of a new order. -/
  order : Order := {}
  /-- Of a cancel. -/
  cancelId : OrderId := 0
  deriving DecidableEq, Repr

inductive WorkloadType where | balanced | insertHeavy | cancelHeavy
  deriving DecidableEq, Repr

def WorkloadType.newPct : WorkloadType → ℕ
  | .balanced => 50
  | .insertHeavy => 80
  | .cancelHeavy => 40

def WorkloadType.cancelPct : WorkloadType → ℕ
  | .balanced => 25
  | .insertHeavy => 10
  | .cancelHeavy => 50

/-! ### Random draws -/

/-- A source of random draws with states in `ρ`. Every draw lies in the range of its distribution;
    nothing else is known of it. -/
structure Rng (ρ : Type*) where
  /-- A draw from `uniform_int_distribution(a, b)`. -/
  uniformInt (a b : ℕ) : ρ → ℕ × ρ
  /-- A draw from `normal_distribution(0, spread_half)`, rounded to `int64_t`. -/
  priceOffset (spreadHalf : Price) : ρ → Int64 × ρ
  uniformInt_range : ∀ {a b : ℕ} (rng : ρ), a ≤ b →
    a ≤ (uniformInt a b rng).1 ∧ (uniformInt a b rng).1 ≤ b
  priceOffset_range : ∀ (spreadHalf : Price) (rng : ρ),
    -2 ^ 62 ≤ (priceOffset spreadHalf rng).1.toInt ∧ (priceOffset spreadHalf rng).1.toInt ≤ 2 ^ 62

/-- The sum of two `int64_t`; an overflow has no meaning. -/
def addInt64 (a b : Int64) : Option Int64 :=
  if -2 ^ 63 ≤ a.toInt + b.toInt ∧ a.toInt + b.toInt < 2 ^ 63 then some (a + b) else none

/-! ### The generator -/

/-- The variables of the loop of `generate`. -/
structure Generator (ρ : Type*) where
  rng : ρ
  actions : List OrderAction := []
  /-- Limit orders that have not been cancelled. -/
  activeOrderIds : List OrderId := []
  nextId : OrderId := 1

namespace Generator
variable {ρ : Type*} (R : Rng ρ)

def addOrder (g : Generator ρ) (order : Order) : Generator ρ :=
  { g with
    actions := g.actions ++ [{ type := .newOrder, order := order }]
    nextId := g.nextId + 1 }

@[simp] theorem actions_addOrder (g : Generator ρ) (order : Order) :
    (g.addOrder order).actions = g.actions ++ [{ type := .newOrder, order := order }] := rfl

@[simp] theorem nextId_addOrder (g : Generator ρ) (order : Order) :
    (g.addOrder order).nextId = g.nextId + 1 := rfl

@[simp] theorem activeOrderIds_addOrder (g : Generator ρ) (order : Order) :
    (g.addOrder order).activeOrderIds = g.activeOrderIds := rfl

/-- A new limit order around `midPrice`, at 100 ticks at least. -/
def newLimit (midPrice spreadHalf : Price) (i : ℕ) (g : Generator ρ) : Option (Generator ρ) :=
  let (s, rng) := R.uniformInt 0 1 g.rng
  let side := if s = 0 then Side.buy else .sell
  let (offset, rng) := R.priceOffset spreadHalf rng
  (addInt64 midPrice.toInt64 offset).map fun rawPrice : Int64 =>
    let rawPrice := if rawPrice < 100 then 100 else rawPrice
    let (q, rng) := R.uniformInt 10 500 rng
    let qty := UInt32.ofNat q
    addOrder { g with rng := rng, activeOrderIds := g.activeOrderIds ++ [g.nextId] } {
      orderId := g.nextId, price := rawPrice.toUInt64, initialQuantity := qty,
      remainingQuantity := qty, timestamp := UInt64.ofNat i * 100, side := side, type := .limit }

/-- A cancel of an active order. There is none if the index that is drawn is out of range. -/
def cancel (g : Generator ρ) : Option (Generator ρ) :=
  let (randIdx, rng) := R.uniformInt 0 (g.activeOrderIds.length - 1) g.rng
  (swapPop g.activeOrderIds randIdx).map fun (toCancel, activeOrderIds) =>
    { g with
      rng := rng
      actions := g.actions ++ [{ type := .cancelOrder, cancelId := toCancel }]
      activeOrderIds := activeOrderIds }

/-- An aggressive market order. -/
def newMarket (i : ℕ) (g : Generator ρ) : Generator ρ :=
  let (s, rng) := R.uniformInt 0 1 g.rng
  let side := if s = 0 then Side.buy else .sell
  let (q, rng) := R.uniformInt 10 500 rng
  let qty := UInt32.ofNat q / 2
  let qty := if qty = 0 then 10 else qty
  addOrder { g with rng := rng } {
    orderId := g.nextId, price := 0, initialQuantity := qty, remainingQuantity := qty,
    timestamp := UInt64.ofNat i * 100, side := side, type := .market }

/-- One pass of the loop. -/
def step (type : WorkloadType) (midPrice spreadHalf : Price) (i : ℕ) (g : Generator ρ) :
    Option (Generator ρ) :=
  let (roll, rng) := R.uniformInt 0 99 g.rng
  let g := { g with rng := rng }
  if roll < type.newPct ∨ g.activeOrderIds = [] then newLimit R midPrice spreadHalf i g
  else if roll < type.newPct + type.cancelPct then cancel R g
  else some (newMarket R i g)

/-- The first `n` passes. -/
def run (type : WorkloadType) (midPrice spreadHalf : Price) (g : Generator ρ) :
    ℕ → Option (Generator ρ)
  | 0 => some g
  | n + 1 => (run type midPrice spreadHalf g n).bind (step R type midPrice spreadHalf n)

end Generator

/-- The actions of a workload. There are none where the source has no meaning: where a price
    overflows `int64_t`, or an index is out of range. -/
def generate {ρ : Type*} (R : Rng ρ) (rng : ρ) (type : WorkloadType) (count : UInt64)
    (midPrice spreadHalf : Price) : Option (List OrderAction) :=
  (Generator.run R type midPrice spreadHalf { rng := rng } count.toNat).map (·.actions)

/-! ### Well-formed workloads -/

/-- The new orders of a workload. -/
def newOrders (actions : List OrderAction) : List Order :=
  (actions.filter (·.type = .newOrder)).map (·.order)

def limitIds (actions : List OrderAction) : List OrderId :=
  ((newOrders actions).filter (·.type = .limit)).map (·.orderId)

/-- The ids that a workload cancels. -/
def cancelIds (actions : List OrderAction) : List OrderId :=
  (actions.filter (·.type = .cancelOrder)).map (·.cancelId)

/-- An order of which nothing has traded. -/
def Order.Unfilled (o : Order) : Prop :=
  o.initialQuantity = o.remainingQuantity ∧ 0 < o.remainingQuantity

/-- The cancels name limit orders that come before them. -/
def CancelsEarlier (actions : List OrderAction) : Prop :=
  ∀ (k : ℕ) (act : OrderAction), actions[k]? = some act → act.type = .cancelOrder →
    ∃ j < k, ∃ lim : OrderAction, actions[j]? = some lim ∧ lim.type = .newOrder ∧
      lim.order.type = .limit ∧ lim.order.orderId = act.cancelId

/-- What a replay of a workload relies on. -/
structure WellFormed (count : UInt64) (actions : List OrderAction) : Prop where
  length : actions.length = count.toNat
  ids : (newOrders actions).map (·.orderId.toNat) = List.range' 1 (newOrders actions).length
  earlier : CancelsEarlier actions
  once : (cancelIds actions).Nodup
  prices : ∀ o ∈ newOrders actions, o.type = .limit → 100 ≤ o.price
  quantities : ∀ o ∈ newOrders actions, o.Unfilled

section Append
variable {actions : List OrderAction} {order : Order} {id : OrderId}

@[simp] theorem newOrders_new : newOrders (actions ++ [{ type := .newOrder, order := order }]) =
    newOrders actions ++ [order] := by
  simp [newOrders]

@[simp] theorem newOrders_cancel : newOrders (actions ++ [{ type := .cancelOrder, cancelId := id }]) =
    newOrders actions := by
  simp [newOrders]

@[simp] theorem cancelIds_new : cancelIds (actions ++ [{ type := .newOrder, order := order }]) =
    cancelIds actions := by
  simp [cancelIds]

@[simp] theorem cancelIds_cancel : cancelIds (actions ++ [{ type := .cancelOrder, cancelId := id }]) =
    cancelIds actions ++ [id] := by
  simp [cancelIds]

@[simp] theorem limitIds_new : limitIds (actions ++ [{ type := .newOrder, order := order }]) =
    limitIds actions ++ if order.type = .limit then [order.orderId] else [] := by
  rw [limitIds, newOrders_new, List.filter_append, List.map_append, limitIds]
  split_ifs with h <;> simp [h]

theorem mem_limitIds_iff : id ∈ limitIds actions ↔ ∃ lim ∈ actions, lim.type = .newOrder ∧
    lim.order.type = .limit ∧ lim.order.orderId = id := by
  simp only [limitIds, newOrders, List.mem_map, List.mem_filter, decide_eq_true_eq]
  constructor
  · rintro ⟨o, ⟨⟨lim, ⟨hlim, hnew⟩, rfl⟩, hlimit⟩, hid⟩
    exact ⟨lim, hlim, hnew, hlimit, hid⟩
  · rintro ⟨lim, hlim, hnew, hlimit, hid⟩
    exact ⟨lim.order, ⟨⟨lim, ⟨hlim, hnew⟩, rfl⟩, hlimit⟩, hid⟩

/-- One more action keeps the cancels in order, if it names a limit order when it cancels. -/
theorem CancelsEarlier.concat {act : OrderAction} (h : CancelsEarlier actions)
    (hact : act.type = .cancelOrder → act.cancelId ∈ limitIds actions) :
    CancelsEarlier (actions ++ [act]) := by
  intro k a hk ha
  rcases Nat.lt_or_ge k actions.length with hlt | hge
  · rw [List.getElem?_append_left hlt] at hk
    obtain ⟨j, hj, lim, hlim, hkind⟩ := h k a hk ha
    exact ⟨j, hj, lim, by rwa [List.getElem?_append_left (by omega)], hkind⟩
  · obtain rfl : a = act := by
      rw [List.getElem?_append_right hge] at hk
      exact List.mem_singleton.mp (List.mem_of_getElem? hk)
    obtain ⟨lim, hmem, hkind⟩ := mem_limitIds_iff.mp (hact ha)
    obtain ⟨j, hj, hlim⟩ := List.mem_iff_getElem.mp hmem
    exact ⟨j, by omega, lim, by rw [List.getElem?_append_left hj, List.getElem?_eq_getElem hj, hlim],
      hkind⟩

end Append

/-! ### What one pass adds -/

namespace Generator
variable {ρ : Type*} {R : Rng ρ} {type : WorkloadType} {midPrice spreadHalf : Price} {i : ℕ}
  {g g' : Generator ρ}

inductive Grows (g : Generator ρ) : Generator ρ → Prop
  | limit {order : Order} (rng : ρ) : order.type = .limit → order.orderId = g.nextId →
      100 ≤ order.price → order.Unfilled →
      Grows g (addOrder { g with
        rng := rng, activeOrderIds := g.activeOrderIds ++ [g.nextId] } order)
  | cancelled {id : OrderId} {activeOrderIds : List OrderId} (rng : ρ) :
      g.activeOrderIds.Perm (id :: activeOrderIds) →
      Grows g { g with
        rng := rng, actions := g.actions ++ [{ type := .cancelOrder, cancelId := id }],
        activeOrderIds := activeOrderIds }
  | market {order : Order} (rng : ρ) : order.type = .market → order.orderId = g.nextId →
      order.Unfilled → Grows g (addOrder { g with rng := rng } order)

/-- A price below `2 ^ 62` and an offset have a sum. -/
theorem addInt64_price {offset : Int64} (hmid : midPrice.toNat < 2 ^ 62)
    (hlow : -2 ^ 62 ≤ offset.toInt) (hhigh : offset.toInt ≤ 2 ^ 62) :
    addInt64 midPrice.toInt64 offset = some (midPrice.toInt64 + offset) := by
  have hcast : midPrice.toInt64.toInt = midPrice.toNat :=
    BitVec.toInt_eq_toNat_of_lt (x := midPrice.toBitVec) (by
      show 2 * midPrice.toNat < 2 ^ 64
      omega)
  rw [addInt64, hcast, if_pos (by omega)]

/-- The price of a limit order, once it has been raised to the least one. -/
theorem price_ge (rawPrice : Int64) :
    100 ≤ (if rawPrice < 100 then 100 else rawPrice).toUInt64 := by
  have hle : (100 : Int64) ≤ if rawPrice < 100 then 100 else rawPrice := by
    split_ifs with h
    · exact Int64.le_refl 100
    · exact Int64.not_lt.mp h
  exact Int64.toUInt64_le (by decide) hle

theorem toNat_qty {q : ℕ} (h : 10 ≤ q ∧ q ≤ 500) : (UInt32.ofNat q).toNat = q :=
  UInt32.toNat_ofNat_of_lt' (by show q < 2 ^ 32; omega)

theorem newLimit_grows (R : Rng ρ) (spreadHalf : Price) (i : ℕ) (g : Generator ρ)
    (hmid : midPrice.toNat < 2 ^ 62) : ∃ g', newLimit R midPrice spreadHalf i g = some g' ∧ g.Grows g' := by
  have hoffset := R.priceOffset_range spreadHalf (R.uniformInt 0 1 g.rng).2
  have hqty := R.uniformInt_range (R.priceOffset spreadHalf (R.uniformInt 0 1 g.rng).2).2
    (show 10 ≤ 500 by omega)
  refine ⟨_, by rw [newLimit]; dsimp only; rw [addInt64_price hmid hoffset.1 hoffset.2]; rfl, ?_⟩
  refine .limit _ rfl rfl (price_ge _) ⟨rfl, ?_⟩
  rw [UInt32.lt_iff_toNat_lt]
  show 0 < (UInt32.ofNat _).toNat
  rw [toNat_qty hqty]
  omega

theorem cancel_grows (R : Rng ρ) (hactive : g.activeOrderIds ≠ []) :
    ∃ g', cancel R g = some g' ∧ g.Grows g' := by
  have hpos := List.length_pos_iff.mpr hactive
  have hrange := R.uniformInt_range g.rng (Nat.zero_le (g.activeOrderIds.length - 1))
  have hin : ¬ g.activeOrderIds.length ≤
      (R.uniformInt 0 (g.activeOrderIds.length - 1) g.rng).1 := by omega
  obtain ⟨⟨id, rest⟩, hpop⟩ := Option.ne_none_iff_exists'.mp (mt swapPop_eq_none_iff.mp hin)
  refine ⟨_, by rw [cancel]; dsimp only; rw [hpop]; rfl, .cancelled _ (swapPop_perm hpop)⟩

theorem newMarket_grows : g.Grows (newMarket R i g) := by
  refine .market _ rfl rfl ⟨rfl, ?_⟩
  dsimp only
  split_ifs with hzero
  · decide
  · exact UInt32.pos_iff_ne_zero.mpr hzero

theorem Grows.of_rng {rng : ρ} (h : Grows { g with rng := rng } g') : g.Grows g' := by
  cases h with
  | limit rng htype hid hprice hqty => exact .limit rng htype hid hprice hqty
  | cancelled rng hperm => exact .cancelled rng hperm
  | market rng htype hid hqty => exact .market rng htype hid hqty

/-- Every pass adds one action. -/
theorem step_grows (R : Rng ρ) (type : WorkloadType) (spreadHalf : Price) (i : ℕ) (g : Generator ρ)
    (hmid : midPrice.toNat < 2 ^ 62) :
    ∃ g', step R type midPrice spreadHalf i g = some g' ∧ g.Grows g' := by
  rw [step]
  dsimp only
  split_ifs with hnew hcancel
  · obtain ⟨g', hg', h⟩ := newLimit_grows R spreadHalf i _ hmid
    exact ⟨g', hg', h.of_rng⟩
  · obtain ⟨g', hg', h⟩ := cancel_grows R (g := { g with rng := (R.uniformInt 0 99 g.rng).2 })
      fun hnil => hnew (.inr hnil)
    exact ⟨g', hg', h.of_rng⟩
  · exact ⟨_, rfl, newMarket_grows.of_rng⟩

/-! ### All passes -/

/-- Behind the first `n` passes. -/
structure Inv (n : ℕ) (g : Generator ρ) : Prop where
  length : g.actions.length = n
  next : g.nextId = UInt64.ofNat ((newOrders g.actions).length + 1)
  ids : (newOrders g.actions).map (·.orderId.toNat) =
    List.range' 1 (newOrders g.actions).length
  /-- The limit orders are those that were cancelled and those that are active. -/
  active : (limitIds g.actions).Perm (cancelIds g.actions ++ g.activeOrderIds)
  earlier : CancelsEarlier g.actions
  prices : ∀ o ∈ newOrders g.actions, o.type = .limit → 100 ≤ o.price
  quantities : ∀ o ∈ newOrders g.actions, o.Unfilled

namespace Inv
variable {n : ℕ}

theorem init (rng : ρ) : Inv 0 ({ rng := rng } : Generator ρ) where
  length := rfl
  next := rfl
  ids := rfl
  active := .refl _
  earlier _ _ h := nomatch h
  prices _ h := nomatch h
  quantities _ h := nomatch h

/-- An id that is given has not wrapped. -/
theorem toNat_nextId (h : g.Inv n) (hn : n < 2 ^ 64 - 1) :
    g.nextId.toNat = (newOrders g.actions).length + 1 := by
  have hle : (newOrders g.actions).length ≤ n := by
    rw [newOrders, List.length_map, ← h.length]
    exact List.length_filter_le ..
  rw [h.next]
  exact UInt64.toNat_ofNat_of_lt' (by show _ < 2 ^ 64; omega)

/-- What is common to new orders. -/
theorem addOrder {order : Order} {active : List OrderId} (h : g.Inv n) (hn : n < 2 ^ 64 - 1)
    (rng : ρ) (hid : order.orderId = g.nextId) (hqty : order.Unfilled)
    (hprice : order.type = .limit → 100 ≤ order.price)
    (hactive : active = g.activeOrderIds ++ if order.type = .limit then [g.nextId] else []) :
    Inv (n + 1) (Generator.addOrder { g with rng := rng, activeOrderIds := active } order) where
  length := by
    simp only [actions_addOrder, List.length_append, List.length_singleton, h.length]
  next := by
    simp only [nextId_addOrder, actions_addOrder, newOrders_new, List.length_append,
      List.length_singleton, h.next]
    exact (UInt64.ofNat_add (_ + 1) 1).symm
  ids := by
    simp only [actions_addOrder, newOrders_new, List.map_append, List.map_singleton,
      List.length_append, List.length_singleton, h.ids, hid, h.toNat_nextId hn]
    rw [List.range'_concat, Nat.one_mul, Nat.add_comm 1]
  active := by
    simp only [actions_addOrder, activeOrderIds_addOrder, limitIds_new, cancelIds_new, hactive, hid]
    rw [← List.append_assoc]
    exact h.active.append_right _
  earlier := h.earlier.concat fun hcancel => nomatch hcancel
  prices o ho := by
    rw [actions_addOrder, newOrders_new, List.mem_append, List.mem_singleton] at ho
    rcases ho with ho | rfl
    · exact h.prices o ho
    · exact hprice
  quantities o ho := by
    rw [actions_addOrder, newOrders_new, List.mem_append, List.mem_singleton] at ho
    rcases ho with ho | rfl
    · exact h.quantities o ho
    · exact hqty

theorem grows (h : g.Inv n) (hn : n < 2 ^ 64 - 1) (hgrows : g.Grows g') : g'.Inv (n + 1) := by
  cases hgrows with
  | limit rng htype hid hprice hqty =>
    exact h.addOrder hn rng hid hqty (fun _ => hprice) (by rw [if_pos htype])
  | market rng htype hid hqty =>
    have hno : _ ≠ OrderType.limit := fun hlimit => nomatch htype.symm.trans hlimit
    exact h.addOrder hn rng hid hqty (fun hlimit => absurd hlimit hno)
      (by rw [if_neg hno, List.append_nil])
  | @cancelled id active rng hperm =>
    have hmem : id ∈ limitIds g.actions :=
      h.active.mem_iff.mpr (List.mem_append_right _ (hperm.mem_iff.mpr List.mem_cons_self))
    refine ⟨?_, ?_, ?_, ?_, h.earlier.concat fun _ => hmem, ?_, ?_⟩ <;> dsimp only
    · rw [List.length_append, h.length, List.length_singleton]
    · rw [newOrders_cancel, h.next]
    · rw [newOrders_cancel, h.ids]
    · rw [limitIds, newOrders_cancel, cancelIds_cancel, List.append_assoc]
      exact h.active.trans (hperm.append_left _)
    · rw [newOrders_cancel]
      exact h.prices
    · rw [newOrders_cancel]
      exact h.quantities

theorem wellFormed {count : UInt64} (h : g.Inv count.toNat) : WellFormed count g.actions where
  length := h.length
  ids := h.ids
  earlier := h.earlier
  once := by
    have hids : ((newOrders g.actions).map (·.orderId)).Nodup := by
      refine List.Nodup.of_map UInt64.toNat ?_
      rw [List.map_map]
      exact h.ids ▸ List.nodup_range'
    have hlimit : (limitIds g.actions).Nodup := hids.sublist (List.filter_sublist.map _)
    exact (List.nodup_append.mp (h.active.nodup_iff.mp hlimit)).1
  prices := h.prices
  quantities := h.quantities

end Inv

/-- The first passes, as many as there are ids. -/
theorem run_inv (hmid : midPrice.toNat < 2 ^ 62) (rng : ρ) : ∀ {n : ℕ}, n < 2 ^ 64 →
    ∃ g, run R type midPrice spreadHalf { rng := rng } n = some g ∧ g.Inv n
  | 0, _ => ⟨_, rfl, .init rng⟩
  | n + 1, hn => by
    obtain ⟨g, hg, hinv⟩ := run_inv hmid rng (n := n) (by omega)
    obtain ⟨g', hg', hgrows⟩ := step_grows R type spreadHalf n g hmid
    exact ⟨g', by rw [run, hg]; exact hg', hinv.grows (by omega) hgrows⟩

end Generator

/-- Whatever is drawn, a workload is generated and well-formed. -/
theorem generate_wellFormed {ρ : Type*} (R : Rng ρ) (rng : ρ) (type : WorkloadType)
    (count : UInt64) {midPrice : Price} (hmid : midPrice.toNat < 2 ^ 62) (spreadHalf : Price) :
    ∃ actions, generate R rng type count midPrice spreadHalf = some actions ∧
      WellFormed count actions := by
  obtain ⟨g, hg, hinv⟩ := Generator.run_inv hmid rng count.toNat_lt
  exact ⟨g.actions, by rw [generate, hg]; rfl, hinv.wellFormed⟩

/-- Random words from a tape. -/
def tape : Rng (List ℕ) where
  uniformInt a b words := (a + words.headD 0 % (b - a + 1), words.tail)
  priceOffset _ words := (Int64.ofInt (words.headD 0 % 101 - 50), words.tail)
  uniformInt_range {a b} words h := by
    have := Nat.mod_lt (words.headD 0) (show 0 < b - a + 1 by omega)
    dsimp only
    omega
  priceOffset_range _ words := by
    dsimp only
    rw [Int64.toInt_ofInt_of_le (by omega) (by omega)]
    omega

/-- Two limit orders, a cancel of the first and a market order. -/
theorem generate_wellFormed_tape : ∃ actions,
    generate tape [0, 0, 50, 0, 1, 1, 51, 7, 60, 0, 90, 1, 3] .balanced 4 10000 50 = some actions ∧
      WellFormed 4 actions :=
  generate_wellFormed tape _ .balanced 4 (by decide) 50

end Titan
