import Titan.Engine.PoolSlots

/-! What a caller can see of a pool, and how large the pool is.

    The queries are answered by the book that the pool stands for. Its capacity is decided by the
    book as well: a pool grows only when an order comes to rest and all slots are in use. -/

namespace Titan
open Schemes

namespace PoolOrderBook
variable {b b' : PoolOrderBook} {o : Order} {s : Side} {p : Price} {i : UInt32}

/-! ### Queries -/

/-- Both pools answer the queries alike, and their queues hold the same orders (`volumeAtPrice`
    aside). -/
structure Alike (b b' : PoolOrderBook) : Prop where
  hasOrder : ∀ id, b.hasOrder id = b'.hasOrder id
  getOrder : ∀ id, b.getOrder id = b'.getOrder id
  bestBid : b.bestBid = b'.bestBid
  bestAsk : b.bestAsk = b'.bestAsk
  totalOrders : b.totalOrders = b'.totalOrders
  bidLevels : b.bidLevels = b'.bidLevels
  askLevels : b.askLevels = b'.askLevels
  queue : ∀ s p, b.levelOrders s p = b'.levelOrders s p

theorem Inv.alike (h : b.Inv) (h' : b'.Inv) (hbook : b.book = b'.book) : Alike b b' where
  hasOrder id := by rw [h.hasOrder_eq, h'.hasOrder_eq, hbook]
  getOrder id := by rw [h.getOrder_eq, h'.getOrder_eq, hbook]
  bestBid := by rw [h.bestBid_eq, h'.bestBid_eq, hbook]
  bestAsk := by rw [h.bestAsk_eq, h'.bestAsk_eq, hbook]
  totalOrders := by rw [h.totalOrders_eq, h'.totalOrders_eq, hbook]
  bidLevels := by
    show (b.levels .buy).size = (b'.levels .buy).size
    rw [h.levels_size, h'.levels_size, hbook]
  askLevels := by
    show (b.levels .sell).size = (b'.levels .sell).size
    rw [h.levels_size, h'.levels_size, hbook]
  queue s p := by rw [h.shape.levelOrders_eq, h'.shape.levelOrders_eq, hbook]

/-! ### Capacity -/

theorem capacity_unlink : (b.unlink s p i).poolCapacity = b.poolCapacity := by
  rcases (b.levels s).split p with ⟨l, pre, post, hc⟩ | ⟨pre, post, hc, hpre, hpost⟩
  · rw [unlink_of_cut hc]
    split_ifs <;> simp [poolCapacity, eraseLevel, detach, setLevel]
  · rw [unlink, SortedMap.find?_of_gap hc hpre hpost]

theorem capacity_cancelOrder (id : OrderId) : (b.cancelOrder id).2.poolCapacity = b.poolCapacity := by
  cases hf : b.orderIndex.find? id with
  | none => rw [cancelOrder, hf]
  | some i =>
    rw [cancelOrder_of_find hf]
    exact length_freeNode.trans capacity_unlink

theorem capacity_clear : b.clear.poolCapacity = b.poolCapacity := by
  simp [poolCapacity, clear]

/-- No slot is free when as many orders rest as there are slots. -/
theorem Inv.freeHead_eq_invalid_iff (h : b.Inv) :
    b.freeHead = invalidIdx ↔ b.book.orders.length = b.poolCapacity := by
  have hlength := h.freeSlots_length
  rw [h.shape.freeHead_eq_invalid_iff, ← List.length_eq_zero_iff, ← h.totalOrders_eq]
  omega

theorem Inv.capacity_rest (h : b.Inv) (o : Order) : (b.rest o).poolCapacity =
    if b.book.orders.length = b.poolCapacity then Shape.grownSize b.poolCapacity
    else b.poolCapacity := by
  rw [rest_eq, poolCapacity, length_restAt, allocateNode_eq]
  simp only [h.freeHead_eq_invalid_iff, pop, length_modifyNode]
  split_ifs
  · exact Shape.length_grow
  · rfl

end PoolOrderBook

/-- The capacity of a pool of `capacity` slots after a call. -/
def Book.capacityAfter (k : Book) (capacity : ℕ) : Call → ℕ
  | .submit o _ =>
    if k.Accepts o ∧ ((k.fillOf o).left ≠ 0 ∧ o.type = .limit) ∧
      (k.setSide o.side.opp (k.fillOf o).rest).orders.length = capacity
    then PoolOrderBook.Shape.grownSize capacity else capacity
  | .cancel _ | .clear => capacity

/-- The book and the capacity decide the capacity after a call. -/
theorem PoolOrderBook.Inv.capacity_call {b : PoolOrderBook} (h : b.Inv) (c : Call) :
    (b.call c).2.poolCapacity = b.book.capacityAfter b.poolCapacity c := by
  cases c with
  | submit o out =>
    obtain ⟨hb, -, hinc, hbook⟩ := matched_spec h o out
    have hcap : (b.matched o out).book.poolCapacity = b.poolCapacity := hb.run.capacity
    have hcall : (b.call (.submit o out)).2 = (b.submitOrder o out).2.2 := rfl
    rw [hcall, submitOrder_eq h, Book.capacityAfter, hinc]
    by_cases ha : b.book.Accepts o
    · by_cases hrest : (b.book.fillOf o).left ≠ 0 ∧ o.type = .limit
      · rw [if_pos ha, if_pos hrest, hb.inv.capacity_rest, hbook, hcap]
        simp [ha, hrest]
      · rw [if_pos ha, if_neg hrest, hcap, if_neg fun hx => hrest hx.2.1]
    · rw [if_neg ha, if_neg fun hx => ha hx.1]
  | cancel id => exact capacity_cancelOrder id
  | clear => exact capacity_clear

end Titan
