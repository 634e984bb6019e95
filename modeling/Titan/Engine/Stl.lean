import Titan.Engine.Pool

/-! The reference engine: a list of orders for each price, and iterators into the lists.

    A list node is an order together with the name of its place in memory. An iterator is such a
    name; names come from a counter, so no two nodes ever share one. The match loops are mirrored as
    in the pool engine. -/

namespace Titan
open Schemes

structure ListNode where
  it : ℕ
  order : Order
  deriving DecidableEq, Repr

structure OrderLocation where
  side : Side
  price : Price
  listIt : ℕ
  deriving DecidableEq, Repr

structure StlOrderBook where
  bids : SortedMap (better .buy) (List ListNode) := .empty
  asks : SortedMap (better .sell) (List ListNode) := .empty
  orderIndex : SortedMap (fun a b : OrderId => a < b) OrderLocation := .empty
  /-- The place of the next list node. -/
  nextIt : ℕ := 0

namespace StlOrderBook

/-- The price map of a side. -/
def levels (b : StlOrderBook) : (s : Side) → SortedMap (better s) (List ListNode)
  | .buy => b.bids
  | .sell => b.asks

def setLevels (b : StlOrderBook) : (s : Side) → SortedMap (better s) (List ListNode) → StlOrderBook
  | .buy, m => { b with bids := m }
  | .sell, m => { b with asks := m }

/-- The queue under `p`, default constructed when there is none. -/
def queueAt (b : StlOrderBook) (s : Side) (p : Price) : List ListNode :=
  ((b.levels s).find? p).getD []

def setQueue (b : StlOrderBook) (s : Side) (p : Price) (q : List ListNode) : StlOrderBook :=
  b.setLevels s ((b.levels s).insert p q)

def eraseLevel (b : StlOrderBook) (s : Side) (p : Price) : StlOrderBook :=
  b.setLevels s ((b.levels s).erase p)

/-- The list nodes of a side in the order of its map and its queues. -/
def nodes (b : StlOrderBook) (s : Side) : List ListNode := (b.levels s).entries.flatMap (·.2)

/-- `*it`; a dangling iterator reads a default order. -/
def deref (b : StlOrderBook) (it : ℕ) : Order :=
  (((b.nodes .buy ++ b.nodes .sell).find? fun nd => nd.it = it).map (·.order)).getD {}

/-! ### Matching -/

/-- One pass of the inner loop: trade with the front of the queue under `p`. -/
def matchLevelStep (a : Side) (p : Price) (m : Matching StlOrderBook) :
    Option (Matching StlOrderBook) :=
  match m.book.queueAt a.opp p with
  | [] => none
  | front :: queue =>
    if m.incoming.remainingQuantity > 0 then
      let maker := front.order
      let matchQty := min m.incoming.remainingQuantity maker.remainingQuantity
      let outTrades := m.outTrades ++ [{
        makerOrderId := maker.orderId
        takerOrderId := m.incoming.orderId
        price := maker.price
        quantity := matchQty
        timestamp := m.incoming.timestamp
        aggressorSide := a }]
      let maker := { maker with remainingQuantity := maker.remainingQuantity - matchQty }
      let incoming :=
        { m.incoming with remainingQuantity := m.incoming.remainingQuantity - matchQty }
      if maker.isFilled then
        let book := { m.book with orderIndex := m.book.orderIndex.erase maker.orderId }
        some ⟨book.setQueue a.opp p queue, incoming, outTrades⟩
      else some ⟨m.book.setQueue a.opp p ({ front with order := maker } :: queue), incoming, outTrades⟩
    else none

/-- The inner loop visits every node of the queue at most once, and then tests once more. -/
def matchLevel (a : Side) (p : Price) (m : Matching StlOrderBook) : Matching StlOrderBook :=
  loop (matchLevelStep a p) ((m.book.queueAt a.opp p).length + 1) m

/-- The test of the outer loop: the price of the queue that is matched next. -/
def nextLevel (a : Side) (m : Matching StlOrderBook) : Option Price :=
  match (m.book.levels a.opp).begin? with
  | none => none
  | some (bestPrice, _) =>
    if m.incoming.remainingQuantity > 0 then
      -- the price does not cross the spread: `break`
      if m.incoming.type = .limit ∧ better a.opp m.incoming.price bestPrice then none
      else some bestPrice
    else none

/-- One pass of the outer loop: match the best queue of the other side, erase it once empty. -/
def matchStep (a : Side) (m : Matching StlOrderBook) : Option (Matching StlOrderBook) :=
  match nextLevel a m with
  | none => none
  | some p =>
    let m := matchLevel a p m
    if (m.book.queueAt a.opp p).isEmpty then
      some { m with book := m.book.eraseLevel a.opp p }
    else some m

def matchSide (a : Side) (m : Matching StlOrderBook) : Matching StlOrderBook :=
  loop (matchStep a) ((m.book.levels a.opp).size + 1) m

def matchBuy (m : Matching StlOrderBook) : Matching StlOrderBook := matchSide .buy m

def matchSell (m : Matching StlOrderBook) : Matching StlOrderBook := matchSide .sell m

/-! ### Entry points -/

/-- Push the order to the back of its queue and index the iterator to it. -/
def restAt (b : StlOrderBook) (s : Side) (order : Order) : StlOrderBook :=
  let queue := b.queueAt s order.price ++ [⟨b.nextIt, order⟩]
  let it := b.nextIt
  let b := { b with nextIt := b.nextIt + 1 }.setQueue s order.price queue
  { b with orderIndex := b.orderIndex.insert order.orderId ⟨s, order.price, it⟩ }

def submitOrder (b : StlOrderBook) (order : Order) (outTrades : List Trade) :
    Bool × List Trade × StlOrderBook :=
  if order.initialQuantity = 0 then (false, outTrades, b) else
  let order := if order.remainingQuantity = 0
    then { order with remainingQuantity := order.initialQuantity } else order
  if order.type = .limit ∧ order.price = 0 then (false, outTrades, b) else
  if (b.orderIndex.find? order.orderId).isSome then (false, outTrades, b) else
  let m := match order.side with
    | .buy => matchBuy ⟨b, order, outTrades⟩
    | .sell => matchSell ⟨b, order, outTrades⟩
  if m.incoming.remainingQuantity > 0 ∧ m.incoming.type = .limit then
    (true, m.outTrades, match m.incoming.side with
      | .buy => m.book.restAt .buy m.incoming
      | .sell => m.book.restAt .sell m.incoming)
  else (true, m.outTrades, m.book)

/-- The side branch of a cancel: erase the node from its queue, erase the queue once empty. -/
def unlink (b : StlOrderBook) (s : Side) (price : Price) (it : ℕ) : StlOrderBook :=
  match (b.levels s).find? price with
  | none => b
  | some queue =>
    let queue := queue.eraseP fun nd => nd.it = it
    let b := b.setQueue s price queue
    if queue.isEmpty then b.eraseLevel s price else b

def cancelOrder (b : StlOrderBook) (orderId : OrderId) : Bool × StlOrderBook :=
  match b.orderIndex.find? orderId with
  | none => (false, b)
  | some loc =>
    let b := match loc.side with
      | .buy => b.unlink .buy loc.price loc.listIt
      | .sell => b.unlink .sell loc.price loc.listIt
    (true, { b with orderIndex := b.orderIndex.erase orderId })

def clear (b : StlOrderBook) : StlOrderBook :=
  { b with bids := .empty, asks := .empty, orderIndex := .empty }

/-! ### Queries -/

def hasOrder (b : StlOrderBook) (orderId : OrderId) : Bool := (b.orderIndex.find? orderId).isSome

def getOrder (b : StlOrderBook) (orderId : OrderId) : Option Order :=
  (b.orderIndex.find? orderId).map fun loc => b.deref loc.listIt

def bestBid (b : StlOrderBook) : Option Price := b.bids.begin?.map (·.1)

def bestAsk (b : StlOrderBook) : Option Price := b.asks.begin?.map (·.1)

def totalOrders (b : StlOrderBook) : ℕ := b.orderIndex.size

def bidLevels (b : StlOrderBook) : ℕ := b.bids.size

def askLevels (b : StlOrderBook) : ℕ := b.asks.size

/-- Sum of the remaining quantities of a queue, modulo `2 ^ 32`. -/
def sumQueue (queue : List ListNode) : Quantity :=
  queue.foldl (fun total ord => total + ord.order.remainingQuantity) 0

def volumeAtPrice (b : StlOrderBook) (side : Side) (price : Price) : Quantity :=
  match side with
  | .buy => ((b.bids.find? price).map sumQueue).getD 0
  | .sell => ((b.asks.find? price).map sumQueue).getD 0

end StlOrderBook

end Titan
