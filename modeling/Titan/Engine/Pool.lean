import Titan.Types
import Titan.Schemes.Loop
import Titan.Schemes.SortedMap
import Titan.Schemes.Linked

/-! The pool engine: resting orders in one vector of slots with index links.

    A slot of `nodes` is on the free list or in the queue of one price level, and `nextIdx` links it
    there. Slot numbers are 32 bits wide with the top value kept as a sentinel. Reference arguments
    of the source become arguments and results; a reference into a level map is a lookup and a
    write-back under the same key. The two match loops are one loop with the aggressor's side as its
    parameter: the maps are mirrored, and so is the test that ends the loop. -/

namespace Titan
open Schemes

/-- `std::numeric_limits<uint32_t>::max()`. -/
def invalidIdx : UInt32 := 4294967295

structure OrderNode where
  order : Order := {}
  prevIdx : UInt32 := invalidIdx
  /-- The next order of the price queue, or the next free slot. -/
  nextIdx : UInt32 := invalidIdx
  deriving DecidableEq, Repr

structure PriceLevel where
  price : Price := 0
  totalVolume : Quantity := 0
  orderCount : UInt32 := 0
  headIdx : UInt32 := invalidIdx
  tailIdx : UInt32 := invalidIdx
  deriving DecidableEq, Repr

def PriceLevel.empty (l : PriceLevel) : Bool := l.headIdx = invalidIdx

structure PoolOrderBook where
  nodes : List OrderNode
  freeHead : UInt32
  orderIndex : SortedMap (fun a b : OrderId => a < b) UInt32
  bids : SortedMap (better .buy) PriceLevel
  asks : SortedMap (better .sell) PriceLevel

/-- The link a slot gets when the free list is laid out over slots up to `size`. -/
def freeLink (size i : ℕ) : UInt32 := if i + 1 < size then UInt32.ofNat (i + 1) else invalidIdx

/-- A matching call in progress: the book, the incoming order and the trades emitted so far. -/
structure Matching (β : Type) where
  book : β
  incoming : Order
  outTrades : List Trade

namespace PoolOrderBook

def ctor (initialCapacity : ℕ) : PoolOrderBook where
  nodes := (List.range initialCapacity).map fun i =>
    { prevIdx := invalidIdx, nextIdx := freeLink initialCapacity i }
  freeHead := if initialCapacity > 0 then 0 else invalidIdx
  orderIndex := .empty
  bids := .empty
  asks := .empty

def poolCapacity (b : PoolOrderBook) : ℕ := b.nodes.length

/-! ### Access to slots and level maps -/

def node (b : PoolOrderBook) (i : UInt32) : OrderNode := b.nodes.getD i.toNat {}

def order (b : PoolOrderBook) (i : UInt32) : Order := (b.node i).order

def next (b : PoolOrderBook) (i : UInt32) : UInt32 := (b.node i).nextIdx

def prev (b : PoolOrderBook) (i : UInt32) : UInt32 := (b.node i).prevIdx

def modifyNode (b : PoolOrderBook) (i : UInt32) (f : OrderNode → OrderNode) : PoolOrderBook :=
  { b with nodes := b.nodes.modify i.toNat f }

def setPrev (b : PoolOrderBook) (i v : UInt32) : PoolOrderBook :=
  b.modifyNode i fun nd => { nd with prevIdx := v }

def setNext (b : PoolOrderBook) (i v : UInt32) : PoolOrderBook :=
  b.modifyNode i fun nd => { nd with nextIdx := v }

def setOrder (b : PoolOrderBook) (i : UInt32) (o : Order) : PoolOrderBook :=
  b.modifyNode i fun nd => { nd with order := o }

/-- The level map of a side. -/
def levels (b : PoolOrderBook) : (s : Side) → SortedMap (better s) PriceLevel
  | .buy => b.bids
  | .sell => b.asks

def setLevels (b : PoolOrderBook) : (s : Side) → SortedMap (better s) PriceLevel → PoolOrderBook
  | .buy, m => { b with bids := m }
  | .sell, m => { b with asks := m }

/-- The level under `p`, default constructed when there is none. -/
def levelAt (b : PoolOrderBook) (s : Side) (p : Price) : PriceLevel := ((b.levels s).find? p).getD {}

def setLevel (b : PoolOrderBook) (s : Side) (p : Price) (l : PriceLevel) : PoolOrderBook :=
  b.setLevels s ((b.levels s).insert p l)

def eraseLevel (b : PoolOrderBook) (s : Side) (p : Price) : PoolOrderBook :=
  b.setLevels s ((b.levels s).erase p)

/-! ### Slots -/

/-- Double the slot vector and lay the free list out over the new slots. -/
def grow (b : PoolOrderBook) : PoolOrderBook :=
  let oldSize := b.nodes.length
  let newSize := if oldSize = 0 then 1024 else oldSize * 2
  { b with
    nodes := b.nodes ++ (List.range' oldSize (newSize - oldSize)).map fun i =>
      { prevIdx := invalidIdx, nextIdx := freeLink newSize i }
    freeHead := UInt32.ofNat oldSize }

def allocateNode (b : PoolOrderBook) (order : Order) : UInt32 × PoolOrderBook :=
  let b := if b.freeHead = invalidIdx then b.grow else b
  let idx := b.freeHead
  (idx, { b with freeHead := b.next idx }.modifyNode idx fun _ =>
    { order := order, prevIdx := invalidIdx, nextIdx := invalidIdx })

def freeNode (b : PoolOrderBook) (idx : UInt32) : PoolOrderBook :=
  { (b.setPrev idx invalidIdx).setNext idx b.freeHead with freeHead := idx }

def appendToLevel (b : PoolOrderBook) (level : PriceLevel) (nodeIdx : UInt32) :
    PoolOrderBook × PriceLevel :=
  let b := (b.setPrev nodeIdx level.tailIdx).setNext nodeIdx invalidIdx
  let b := if level.tailIdx ≠ invalidIdx then b.setNext level.tailIdx nodeIdx else b
  (b, { level with
    headIdx := if level.tailIdx ≠ invalidIdx then level.headIdx else nodeIdx
    tailIdx := nodeIdx
    totalVolume := level.totalVolume + (b.order nodeIdx).remainingQuantity
    orderCount := level.orderCount + 1 })

def removeFromLevel (b : PoolOrderBook) (level : PriceLevel) (nodeIdx : UInt32) :
    PoolOrderBook × PriceLevel :=
  let p := b.prev nodeIdx
  let n := b.next nodeIdx
  let b := if p ≠ invalidIdx then b.setNext p n else b
  let b := if n ≠ invalidIdx then b.setPrev n p else b
  (b, { level with
    headIdx := if p ≠ invalidIdx then level.headIdx else n
    tailIdx := if n ≠ invalidIdx then level.tailIdx else p
    totalVolume := level.totalVolume - (b.order nodeIdx).remainingQuantity
    orderCount := level.orderCount - 1 })

/-! ### Matching -/

/-- One pass of the inner loop: trade with the order at the head of the level under `p`. -/
def matchLevelStep (a : Side) (p : Price) (m : Matching PoolOrderBook) :
    Option (Matching PoolOrderBook) :=
  let level := m.book.levelAt a.opp p
  if level.headIdx ≠ invalidIdx ∧ m.incoming.remainingQuantity > 0 then
    let makerIdx := level.headIdx
    let maker := m.book.order makerIdx
    let matchQty := min m.incoming.remainingQuantity maker.remainingQuantity
    let outTrades := m.outTrades ++ [{
      makerOrderId := maker.orderId
      takerOrderId := m.incoming.orderId
      price := maker.price
      quantity := matchQty
      timestamp := m.incoming.timestamp
      aggressorSide := a }]
    let maker := { maker with remainingQuantity := maker.remainingQuantity - matchQty }
    let book := m.book.setOrder makerIdx maker
    let incoming :=
      { m.incoming with remainingQuantity := m.incoming.remainingQuantity - matchQty }
    if maker.isFilled then
      let book := { book with orderIndex := book.orderIndex.erase maker.orderId }
      let (book, level) := book.removeFromLevel level makerIdx
      let book := (book.setLevel a.opp p level).freeNode makerIdx
      some ⟨book, incoming, outTrades⟩
    else some ⟨book, incoming, outTrades⟩
  else none

/-- The inner loop visits every slot at most once, and then tests once more. -/
def matchLevel (a : Side) (p : Price) (m : Matching PoolOrderBook) : Matching PoolOrderBook :=
  loop (matchLevelStep a p) (m.book.nodes.length + 1) m

/-- The test of the outer loop: the price of the level that is matched next. -/
def nextLevel (a : Side) (m : Matching PoolOrderBook) : Option Price :=
  match (m.book.levels a.opp).begin? with
  | none => none
  | some (p, level) =>
    if m.incoming.remainingQuantity > 0 then
      -- the spread is not crossed: `break`
      if m.incoming.type = .limit ∧ better a.opp m.incoming.price level.price then none
      else some p
    else none

/-- One pass of the outer loop: match the best level of the other side, erase it once empty. -/
def matchStep (a : Side) (m : Matching PoolOrderBook) : Option (Matching PoolOrderBook) :=
  match nextLevel a m with
  | none => none
  | some p =>
    let m := matchLevel a p m
    if (m.book.levelAt a.opp p).empty then
      some { m with book := m.book.eraseLevel a.opp p }
    else some m

def matchSide (a : Side) (m : Matching PoolOrderBook) : Matching PoolOrderBook :=
  loop (matchStep a) ((m.book.levels a.opp).size + 1) m

def matchBuy (m : Matching PoolOrderBook) : Matching PoolOrderBook := matchSide .buy m

def matchSell (m : Matching PoolOrderBook) : Matching PoolOrderBook := matchSide .sell m

/-! ### Entry points -/

/-- `auto& level = side[price]; level.price = price; append_to_level(level, node_idx)`. -/
def restAt (b : PoolOrderBook) (s : Side) (price : Price) (nodeIdx : UInt32) : PoolOrderBook :=
  let level := { b.levelAt s price with price := price }
  let (b, level) := b.appendToLevel level nodeIdx
  b.setLevel s price level

/-- Rest the unfilled part of a limit order. -/
def rest (b : PoolOrderBook) (order : Order) : PoolOrderBook :=
  let (nodeIdx, b) := b.allocateNode order
  let b := { b with orderIndex := b.orderIndex.insert order.orderId nodeIdx }
  match order.side with
  | .buy => b.restAt .buy order.price nodeIdx
  | .sell => b.restAt .sell order.price nodeIdx

def submitOrder (b : PoolOrderBook) (order : Order) (outTrades : List Trade) :
    Bool × List Trade × PoolOrderBook :=
  if order.initialQuantity = 0 then (false, outTrades, b) else
  let order := if order.remainingQuantity = 0
    then { order with remainingQuantity := order.initialQuantity } else order
  if order.type = .limit ∧ order.price = 0 then (false, outTrades, b) else
  -- duplicate order_id rejection
  if (b.orderIndex.find? order.orderId).isSome then (false, outTrades, b) else
  let m := match order.side with
    | .buy => matchBuy ⟨b, order, outTrades⟩
    | .sell => matchSell ⟨b, order, outTrades⟩
  if m.incoming.remainingQuantity > 0 ∧ m.incoming.type = .limit then
    (true, m.outTrades, m.book.rest m.incoming)
  else (true, m.outTrades, m.book)

/-- The side branch of a cancel: take the slot off its level, erase the level once empty. -/
def unlink (b : PoolOrderBook) (s : Side) (price : Price) (nodeIdx : UInt32) : PoolOrderBook :=
  match (b.levels s).find? price with
  | none => b
  | some level =>
    let (b, level) := b.removeFromLevel level nodeIdx
    let b := b.setLevel s price level
    if level.empty then b.eraseLevel s price else b

def cancelOrder (b : PoolOrderBook) (orderId : OrderId) : Bool × PoolOrderBook :=
  match b.orderIndex.find? orderId with
  | none => (false, b)
  | some nodeIdx =>
    let ord := b.order nodeIdx
    let b := match ord.side with
      | .buy => b.unlink .buy ord.price nodeIdx
      | .sell => b.unlink .sell ord.price nodeIdx
    let b := b.freeNode nodeIdx
    (true, { b with orderIndex := b.orderIndex.erase orderId })

def clear (b : PoolOrderBook) : PoolOrderBook where
  nodes := b.nodes.mapIdx fun i nd =>
    { nd with prevIdx := invalidIdx, nextIdx := freeLink b.nodes.length i }
  freeHead := if b.nodes.length > 0 then 0 else invalidIdx
  orderIndex := .empty
  bids := .empty
  asks := .empty

/-! ### Queries -/

def hasOrder (b : PoolOrderBook) (orderId : OrderId) : Bool := (b.orderIndex.find? orderId).isSome

def getOrder (b : PoolOrderBook) (orderId : OrderId) : Option Order :=
  (b.orderIndex.find? orderId).map b.order

def bestBid (b : PoolOrderBook) : Option Price := b.bids.begin?.map (·.1)

def bestAsk (b : PoolOrderBook) : Option Price := b.asks.begin?.map (·.1)

def totalOrders (b : PoolOrderBook) : ℕ := b.orderIndex.size

def bidLevels (b : PoolOrderBook) : ℕ := b.bids.size

def askLevels (b : PoolOrderBook) : ℕ := b.asks.size

def volumeAtPrice (b : PoolOrderBook) (side : Side) (price : Price) : Quantity :=
  match side with
  | .buy => ((b.bids.find? price).map (·.totalVolume)).getD 0
  | .sell => ((b.asks.find? price).map (·.totalVolume)).getD 0

end PoolOrderBook

end Titan
