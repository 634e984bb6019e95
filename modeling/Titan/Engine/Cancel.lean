import Titan.Engine.Flush
import Titan.Engine.Ledger
import Titan.Engine.NoTrace

/-! What a cancel takes out of the pool, and what it leaves alone.

    Unlinking writes the neighbours of one slot, and they lie in the same queue. So every other level
    keeps its record, its slots and what is stored in them, and the free list gains one slot. -/

namespace Titan
open Schemes

/-! ### The book without one order -/

/-- An id that is there once is filtered out at its place. -/
theorem filter_ne_of_cut {xs ys : List Order} {o : Order}
    (h : ((xs ++ o :: ys).map (·.orderId)).Nodup) :
    (xs ++ o :: ys).filter (fun x => x.orderId ≠ o.orderId) = xs ++ ys := by
  have hnd : (o.orderId :: (xs ++ ys).map (·.orderId)).Nodup := by
    have hperm : (xs ++ o :: ys).Perm (o :: (xs ++ ys)) := List.perm_middle
    exact (hperm.map (·.orderId)).nodup_iff.mp h
  obtain ⟨hnew, -⟩ := List.nodup_cons.mp hnd
  have hkeep : (xs ++ ys).filter (fun x => x.orderId ≠ o.orderId) = xs ++ ys := by
    rw [List.filter_eq_self]
    intro x hx
    refine decide_eq_true fun hid => hnew ?_
    rw [← hid]
    exact List.mem_map_of_mem hx
  rw [List.filter_append, List.filter_cons_of_neg (by simp), ← List.filter_append, hkeep]

namespace Book
variable {k : Book} {s : Side} {p : Price} {id id' : OrderId}

theorem mem_queueAt {o : Order} : o ∈ k.queueAt s p ↔ o ∈ k s ∧ o.price = p := by
  rw [queueAt, List.mem_filter, decide_eq_true_eq]

theorem queueAt_cancel (k : Book) (id : OrderId) (s : Side) (p : Price) :
    (k.cancel id).2.queueAt s p = (k.queueAt s p).filter fun o => o.orderId ≠ id :=
  List.filter_comm ..

theorem cancel_comm (k : Book) (id id' : OrderId) :
    ((k.cancel id).2.cancel id').2 = ((k.cancel id').2.cancel id).2 :=
  funext fun _ => List.filter_comm ..

theorem cancel_flag_of_ne (h : id' ≠ id) :
    ((k.cancel id).2.cancel id').1 = (k.cancel id').1 := by
  show ((k.without id).find? id').isSome = (k.find? id').isSome
  rw [Bool.eq_iff_iff, Option.isSome_iff_ne_none, Option.isSome_iff_ne_none, Ne,
    find?_without_none h]

end Book

namespace PoolOrderBook
variable {b b' : PoolOrderBook} {s t : Side} {p q : Price} {i j : UInt32} {id id' : OrderId}
  {o : Order}

/-! ### Best prices -/

def best (b : PoolOrderBook) : Side → Option Price
  | .buy => b.bestBid
  | .sell => b.bestAsk

/-- `r` is the best price of the levels of side `s`, if there are any. -/
def IsBest (b : PoolOrderBook) (s : Side) : Option Price → Prop
  | none => ∀ p, b.levelOrders s p = []
  | some r => b.levelOrders s r ≠ [] ∧ ∀ p, b.levelOrders s p ≠ [] → ¬ better s p r

theorem Inv.best_eq_bestPrice (h : b.Inv) : ∀ s, b.best s = b.book.bestPrice s
  | .buy => h.bestBid_eq
  | .sell => h.bestAsk_eq

theorem Good.isBest (h : b.Good) (s : Side) : b.IsBest s (b.best s) := by
  obtain ⟨hinv, hsane⟩ := h
  rw [hinv.best_eq_bestPrice, Book.bestPrice]
  have hqueue : ∀ p, b.levelOrders s p = b.book.queueAt s p := hinv.shape.levelOrders_eq s
  cases hk : b.book s with
  | nil =>
    intro p
    rw [hqueue, Book.queueAt, hk]
    rfl
  | cons m ms =>
    have hsort := hsane.sorted s
    rw [hk] at hsort
    refine ⟨?_, fun p hp hbetter => ?_⟩
    · rw [hqueue]
      refine List.ne_nil_of_mem (Book.mem_queueAt.mpr ⟨?_, rfl⟩)
      rw [hk]
      exact List.mem_cons_self ..
    · rw [hqueue] at hp
      obtain ⟨x, hx⟩ := List.exists_mem_of_ne_nil _ hp
      obtain ⟨hxk, rfl⟩ := Book.mem_queueAt.mp hx
      rw [hk] at hxk
      rcases List.mem_cons.mp hxk with rfl | hxs
      · exact better_irrefl _ _ hbetter
      · exact List.rel_of_pairwise_cons hsort hxs hbetter

/-! ### Which orders rest -/

/-- An order with this id is in the queue of a level. -/
def Rests (b : PoolOrderBook) (id : OrderId) : Prop :=
  ∃ s p, ∃ o ∈ b.levelOrders s p, o.orderId = id

theorem Inv.rests_iff (h : b.Inv) : b.Rests id ↔ b.book.find? id ≠ none := by
  rw [Ne, Book.find?_eq_none_iff]
  push Not
  constructor
  · rintro ⟨s, p, o, ho, hid⟩
    rw [h.shape.levelOrders_eq] at ho
    exact ⟨o, (b.book.mem_orders s).mpr (.inl (Book.mem_queueAt.mp ho).1), hid⟩
  · rintro ⟨o, ho, hid⟩
    obtain ⟨s, hs⟩ := Book.exists_mem_side ho
    refine ⟨s, o.price, o, ?_, hid⟩
    rw [h.shape.levelOrders_eq]
    exact Book.mem_queueAt.mpr ⟨hs, rfl⟩

theorem Inv.cancelOrder_flag (h : b.Inv) : (b.cancelOrder id).1 = true ↔ b.Rests id := by
  rw [flag_cancelOrder h, h.rests_iff, Option.isSome_iff_ne_none]

/-! ### The frame of a cancel -/

theorem find?_unlink_of_ne (h : ¬ (t = s ∧ q = p)) :
    ((b.unlink s p i).levels t).find? q = (b.levels t).find? q := by
  rcases s.eq_or_eq_opp t with rfl | rfl
  · have hne : q ≠ p := fun hq => h ⟨rfl, hq⟩
    rcases (b.levels t).split p with ⟨l, pre, post, hc⟩ | ⟨pre, post, hc, hpre, hpost⟩
    · have hd : ((b.detach t p l i).levels t).find? q = (b.levels t).find? q := by
        rw [detach, setLevel, levels_setLevels, levels_removeFromLevel,
          SortedMap.find?_insert_of_ne _ _ hne]
      rw [unlink_of_cut hc]
      split_ifs
      · rw [eraseLevel, levels_setLevels, SortedMap.find?_erase_of_ne _ _ hne, hd]
      · exact hd
    · rw [unlink, SortedMap.find?_of_gap hc hpre hpost]
  · rw [levels_unlink_opp]

/-- Unlinking writes slots of one level only. -/
theorem node_unlink {l : PriceLevel} {pre post : List (Price × PriceLevel)}
    {held xs ys : List UInt32} (h : b.Shape held)
    (hc : (b.levels s).entries = pre ++ (p, l) :: post) (hl : b.levelSlots l = xs ++ i :: ys)
    (hj : j ∉ b.levelSlots l) : (b.unlink s p i).node j = b.node j := by
  have hlv := h.level_of_cut hc
  rw [hl] at hlv hj
  have hd : (b.detach s p l i).node j = b.node j := by
    rw [detach, setLevel, node_congr (nodes_setLevels _), Shape.node_removeFromLevel hlv hj]
  rw [unlink_of_cut hc]
  split_ifs
  · rw [eraseLevel, node_congr (nodes_setLevels _), hd]
  · exact hd

/-- Levels that are not written keep their slots. -/
theorem Inv.levelSlots_congr (h : b.Inv) (hlen : b'.nodes.length = b.nodes.length)
    {l : PriceLevel} (hfind : (b.levels s).find? p = some l)
    (hnode : ∀ i ∈ b.levelSlots l, b'.node i = b.node i) :
    b'.levelSlots l = b.levelSlots l := by
  have hmem := SortedMap.find?_eq_some_iff_mem.mp hfind
  refine ((h.shape.level s (p, l) hmem).congr hnode).levelSlots_eq fun i hi => ?_
  rw [hlen]
  exact h.shape.range_of_mem (.inr (.inr ⟨s, Shape.levelSlots_subset hmem hi⟩))

/-- Two levels share no slot. -/
theorem Inv.notMem_levelSlots (h : b.Inv) {l m : PriceLevel}
    (hl : (b.levels s).find? p = some l) (hm : (b.levels t).find? q = some m)
    (hne : ¬ (t = s ∧ q = p)) (hj : j ∈ b.levelSlots m) : j ∉ b.levelSlots l := by
  intro hjl
  obtain ⟨hs, hp⟩ := (h.shape.level s _ (SortedMap.find?_eq_some_iff_mem.mp hl)).orders j hjl
  obtain ⟨ht, hq⟩ := (h.shape.level t _ (SortedMap.find?_eq_some_iff_mem.mp hm)).orders j hj
  exact hne ⟨ht.symm.trans hs, hq.symm.trans hp⟩

/-- A cancel of the order in slot `i` leaves every other level as it is. -/
theorem Inv.frame_cancelOrder (h : b.Inv) (hf : b.orderIndex.find? id = some i)
    (hne : ¬ (t = (b.order i).side ∧ q = (b.order i).price)) :
    ((b.cancelOrder id).2.levels t).find? q = (b.levels t).find? q ∧
    ∀ l ∈ (b.levels t).find? q, (b.cancelOrder id).2.levelSlots l = b.levelSlots l ∧
      ∀ j ∈ b.levelSlots l, (b.cancelOrder id).2.node j = b.node j := by
  obtain ⟨hi, -⟩ := (h.indexed.find id i).mp hf
  obtain ⟨s, his⟩ := b.exists_queued hi
  obtain ⟨hside, pre, l, post, xs, ys, hc, hl⟩ := h.shape.of_queued his
  have hlen : (b.cancelOrder id).2.nodes.length = b.nodes.length := capacity_cancelOrder id
  rw [cancelOrder_of_find hf] at hlen ⊢
  rw [hside] at hne hlen ⊢
  refine ⟨?_, fun m hm => ?_⟩
  · rw [← find?_unlink_of_ne (b := b) (i := i) hne, ← levels_freeNode (i := i)]
    cases t <;> rfl
  · have hnode : ∀ j ∈ b.levelSlots m,
        ((b.unlink s (b.order i).price i).freeNode i).node j = b.node j := by
      intro j hj
      have hjl := h.notMem_levelSlots (SortedMap.find?_of_cut hc) hm hne hj
      have hji : j ≠ i := by
        rintro rfl
        rw [hl] at hjl
        exact hjl (by simp)
      rw [node_freeNode_of_ne hji, node_unlink h.shape hc hl hjl]
    exact ⟨h.levelSlots_congr hlen hm hnode, hnode⟩

/-- What is left of the pool `b` when the order `o` is taken out from between `xs` and `ys`, the
    other orders of its level. -/
structure TakenOut (b b' : PoolOrderBook) (o : Order) (xs ys : List Order) : Prop where
  before : b.levelOrders o.side o.price = xs ++ o :: ys
  after : b'.levelOrders o.side o.price = xs ++ ys
  /-- The level goes iff the order was its only one. -/
  erased : (b'.levels o.side).find? o.price = none ↔ xs = [] ∧ ys = []
  /-- Any other level is the same record over the same slots, and no one has written these. -/
  others : ∀ s p, ¬ (s = o.side ∧ p = o.price) →
    (b'.levels s).find? p = (b.levels s).find? p ∧
    ∀ l ∈ (b.levels s).find? p, b'.levelSlots l = b.levelSlots l ∧
      ∀ i ∈ b.levelSlots l, b'.node i = b.node i
  gone : ¬ b'.Rests o.orderId
  kept : ∀ id, id ≠ o.orderId → b'.getOrder id = b.getOrder id
  bestBid : b'.IsBest .buy b'.bestBid
  bestAsk : b'.IsBest .sell b'.bestAsk

/-- A cancel that finds its order takes it out. -/
theorem Good.takenOut (h : b.Good) (hflag : (b.cancelOrder id).1 = true) :
    ∃ o xs ys, o.orderId = id ∧ TakenOut b (b.cancelOrder id).2 o xs ys := by
  obtain ⟨hinv, hsane⟩ := h
  cases hf : b.orderIndex.find? id with
  | none => rw [cancelOrder, hf] at hflag; cases hflag
  | some i =>
    obtain ⟨hi, rfl⟩ := (hinv.indexed.find id i).mp hf
    obtain ⟨s, his⟩ := b.exists_queued hi
    have hside : (b.order i).side = s := (hinv.shape.of_queued his).1
    have hmem : b.order i ∈ b.book.queueAt s (b.order i).price :=
      Book.mem_queueAt.mpr ⟨List.mem_map_of_mem his, rfl⟩
    obtain ⟨xs, ys, hxy⟩ := List.mem_iff_append.mp hmem
    have hinv' := (cancelOrder_spec hinv (b.order i).orderId).1
    have hbook := book_cancelOrder hinv (b.order i).orderId
    have hids : ((xs ++ b.order i :: ys).map (·.orderId)).Nodup := by
      have hall := (List.nodup_append.mp (by simpa only [List.map_append] using hsane.ids_side s)).1
      rw [← hxy]
      exact hall.sublist (List.filter_sublist.map _)
    have hafter : (b.cancelOrder (b.order i).orderId).2.book.queueAt s (b.order i).price =
        xs ++ ys := by
      rw [hbook, Book.queueAt_cancel, hxy, filter_ne_of_cut hids]
    have hgood' : (b.cancelOrder (b.order i).orderId).2.Good := ⟨hinv', hbook ▸ hsane.cancel _⟩
    refine ⟨b.order i, xs, ys, rfl, ?_⟩
    refine ⟨?_, ?_, ?_, fun t q hne => hinv.frame_cancelOrder hf hne, ?_, fun id' hne => ?_,
      hgood'.isBest .buy, hgood'.isBest .sell⟩
    · rw [hinv.shape.levelOrders_eq, hside, hxy]
    · rw [hinv'.shape.levelOrders_eq, hside, hafter]
    · rw [hinv'.find?_none_iff, hside, hafter, List.append_eq_nil_iff]
    · rw [hinv'.rests_iff, hbook, not_not]
      exact Book.find?_cancel_self ..
    · rw [hinv'.getOrder_eq, hinv.getOrder_eq, hbook]
      exact Book.find?_cancel_of_ne hsane hne

theorem cancelOrder_of_not_found (hflag : (b.cancelOrder id).1 = false) :
    (b.cancelOrder id).2 = b := by
  cases hf : b.orderIndex.find? id with
  | none => rw [cancelOrder, hf]
  | some i => rw [cancelOrder_of_find hf] at hflag; cases hflag

end PoolOrderBook

/-! ### Two cancels -/

namespace Book
variable {k : Book} {id id' : OrderId}

/-- What a cancel takes off the counter of the level under `p`. -/
def takenOff (k : Book) (id : OrderId) (s : Side) (p : Price) : Quantity :=
  match k.find? id with
  | none => 0
  | some o => if s = o.side ∧ o.price = p then o.remainingQuantity else 0

theorem countersAfter_cancel (k : Book) (v : Side → Price → Quantity) (id : OrderId) (s : Side)
    (p : Price) : k.countersAfter v (.cancel id) s p =
      if (k.cancel id).2.queueAt s p = [] then 0 else v s p - k.takenOff id s p := by
  rw [countersAfter, takenOff]
  split_ifs
  · rfl
  · cases k.find? id with
    | none => exact (UInt32.sub_zero _).symm
    | some o => rfl

theorem takenOff_cancel (hk : k.Sane) (h : id' ≠ id) :
    (k.cancel id).2.takenOff id' = k.takenOff id' := by
  funext s p
  rw [takenOff, takenOff, find?_cancel_of_ne hk h]

/-- The level counters after two cancels. -/
theorem countersAfter_cancel_cancel (hk : k.Sane) (h : id' ≠ id) (v : Side → Price → Quantity)
    (s : Side) (p : Price) :
    (k.cancel id).2.countersAfter (k.countersAfter v (.cancel id)) (.cancel id') s p =
      if ((k.cancel id).2.cancel id').2.queueAt s p = [] then 0
      else v s p - (k.takenOff id s p + k.takenOff id' s p) := by
  rw [countersAfter_cancel, countersAfter_cancel, takenOff_cancel hk h]
  by_cases hq : ((k.cancel id).2.cancel id').2.queueAt s p = []
  · rw [if_pos hq, if_pos hq]
  · have hfirst : (k.cancel id).2.queueAt s p ≠ [] := by
      intro hnil
      rw [queueAt_cancel, hnil] at hq
      exact hq rfl
    rw [if_neg hq, if_neg hq, if_neg hfirst]
    grind

end Book

namespace PoolOrderBook
variable {b : PoolOrderBook} {id id' : OrderId} {o : Order} {out : List Trade}

/-- Cancels of two ids in either order have the same flags and leave twins. -/
theorem Good.cancel_comm (h : b.Good) (hne : id' ≠ id) :
    ((b.cancelOrder id).2.cancelOrder id').1 = (b.cancelOrder id').1 ∧
    Twin ((b.cancelOrder id).2.cancelOrder id').2 ((b.cancelOrder id').2.cancelOrder id).2 := by
  obtain ⟨hinv, hsane⟩ := h
  have hspec : ∀ {b : PoolOrderBook} (id : OrderId), b.Inv → (b.cancelOrder id).2.Inv ∧
      (b.cancelOrder id).1 = (b.book.cancel id).1 ∧
      (b.cancelOrder id).2.book = (b.book.cancel id).2 ∧
      (b.cancelOrder id).2.volumeAtPrice = b.book.countersAfter b.volumeAtPrice (.cancel id) := by
    intro b id h
    exact ⟨(cancelOrder_spec h id).1, flag_cancelOrder h id, book_cancelOrder h id,
      funext fun s => funext fun p => volume_cancelOrder h id s p⟩
  obtain ⟨hinv₁, -, hbook₁, hvol₁⟩ := hspec id hinv
  obtain ⟨hinv₂, hflag₂, hbook₂, hvol₂⟩ := hspec id' hinv
  obtain ⟨hinv₁₂, hflag₁₂, hbook₁₂, hvol₁₂⟩ := hspec id' hinv₁
  obtain ⟨hinv₂₁, -, hbook₂₁, hvol₂₁⟩ := hspec id hinv₂
  refine ⟨?_, hinv₁₂, hinv₂₁, ?_, ?_⟩
  · rw [hflag₁₂, hbook₁, Book.cancel_flag_of_ne hne, hflag₂]
  · rw [hbook₁₂, hbook₂₁, hbook₁, hbook₂, Book.cancel_comm]
  · funext s p
    rw [hvol₁₂, hvol₂₁, hbook₁, hbook₂, hvol₁, hvol₂, Book.countersAfter_cancel_cancel hsane hne,
      Book.countersAfter_cancel_cancel hsane hne.symm, Book.cancel_comm, UInt32.add_comm]

/-! ### A submission that only rests, and its cancel -/

/-- No order of the other side is within the limit when the best one is not. -/
theorem Good.fillOf_eq (h : b.Good) (hcross : ∀ p ∈ b.best o.side.opp, ¬ o.Reaches p) :
    b.book.fillOf o = ⟨[], o.effective, b.book o.side.opp⟩ := by
  obtain ⟨hinv, hsane⟩ := h
  rw [hinv.best_eq_bestPrice, Book.bestPrice] at hcross
  have hsort := hsane.sorted o.side.opp
  refine fill_stopped o (.inr ?_)
  cases hk : b.book o.side.opp with
  | nil =>
    intro m hm
    cases hm
  | cons m ms =>
    rw [hk] at hcross hsort
    exact not_reaches_of_sorted (hcross m.price rfl) hsort

theorem Inv.matched_eq (h : b.Inv) (hcross : ∀ p ∈ b.best o.side.opp, ¬ o.Reaches p) :
    b.matched o out = b.entry o out := by
  have hnext : nextLevel o.side (b.entry o out) = none := by
    cases hn : nextLevel o.side (b.entry o out) with
    | none => rfl
    | some p =>
      obtain ⟨-, hreach, l, post, hc⟩ := (nextLevel_eq_some_iff h.shape rfl).mp hn
      have hbest : b.best o.side.opp = some p := by
        have hbegin : ((b.levels o.side.opp).begin?).map (·.1) = some p := by
          show ((b.levels o.side.opp).entries.head?).map (·.1) = some p
          exact hc ▸ rfl
        cases hs : o.side <;> rw [hs] at hbegin <;> exact hbegin
      exact absurd hreach (hcross p hbest)
  rw [matched, matchSide, loop, matchStep, hnext]

/-- The first free slot takes the order, and the id leads there. -/
theorem Inv.freeSlots_rest (h : b.Inv) (hfree : b.freeSlots ≠ []) (hfit : (b.rest o).Fits) :
    ∃ x, b.freeSlots = x :: (b.rest o).freeSlots ∧
      (b.rest o).orderIndex.find? o.orderId = some x := by
  have hcap : (b.allocateNode o).2.nodes.length < 2 ^ 32 := by
    have hfit' := hfit
    rw [Fits, poolCapacity, rest_eq, length_restAt] at hfit'
    exact hfit'
  obtain ⟨hs, hox, -, -, hgrow⟩ := h.shape.allocateNode (o := o) hcap
  rw [if_neg hfree] at hgrow
  set x := (b.allocateNode o).1
  have hne : ∀ t, ∀ e ∈ ((b.allocateNode o).2.levels t).entries, e.2.headIdx ≠ invalidIdx := by
    intro t
    rw [levels_allocateNode]
    exact h.noEmptyLevel t
  obtain ⟨-, -, hfs, -⟩ := restAt_spec (s := o.side) (p := o.price)
    (hs.setIndex ((b.allocateNode o).2.orderIndex.insert o.orderId x))
    (fun t e he => hne t e (by cases t <;> exact he))
    ⟨congrArg Order.side hox, congrArg Order.price hox⟩
  refine ⟨x, ?_, ?_⟩
  · rw [rest_eq, hfs]
    exact hgrow.1
  · rw [rest_eq, orderIndex_restAt]
    exact SortedMap.find?_insert_self ..

/-- A limit order that crosses nothing goes straight to its level. -/
theorem Good.submitOrder_eq (h : b.Good) (ha : b.book.Accepts o) (hl : o.type = .limit)
    (hcross : ∀ p ∈ b.best o.side.opp, ¬ o.Reaches p) : b.submitOrder o out =
      (true, out, b.rest { o with remainingQuantity := o.effective }) := by
  rw [PoolOrderBook.submitOrder_eq h.1, if_pos ha, h.1.matched_eq hcross, entry,
    if_pos ⟨ha.effective_ne_zero, hl⟩]

/-- The cancel of an order that went straight to its level undoes the submission; while the pool
    does not grow, it gives the slot back to where it came from. -/
theorem Good.cancel_submitted (h : b.Good) (ha : b.book.Accepts o) (hl : o.type = .limit)
    (hcross : ∀ p ∈ b.best o.side.opp, ¬ o.Reaches p)
    (hfit : (b.submitOrder o out).2.2.Fits) :
    (((b.submitOrder o out).2.2.cancelOrder o.orderId).2).Inv ∧
    ((b.submitOrder o out).2.2.cancelOrder o.orderId).2.book = b.book ∧
    ((b.submitOrder o out).2.2.poolCapacity = b.poolCapacity →
      ((b.submitOrder o out).2.2.cancelOrder o.orderId).2.freeSlots = b.freeSlots) := by
  have hinv := h.1
  obtain ⟨hinv₁, -, hbook₁⟩ := submitOrder_accepted hinv ha hfit
  have hinv₂ := (cancelOrder_spec hinv₁ o.orderId).1
  have hno : (b.book.fillOf o).trades = [] := by rw [h.fillOf_eq hcross]
  refine ⟨hinv₂, ?_, fun hsame => ?_⟩
  · rw [book_cancelOrder hinv₁, hbook₁]
    exact Book.accept_without_self ha hno
  · rw [h.submitOrder_eq ha hl hcross] at hsame hfit hinv₁ ⊢
    dsimp only at hsame hfit hinv₁ ⊢
    have hfree : b.freeSlots ≠ [] := by
      intro hnil
      -- without a free slot the pool has grown
      have hfull := hinv.freeHead_eq_invalid_iff.mp (hinv.shape.freeHead_eq_invalid_iff.mpr hnil)
      rw [hinv.capacity_rest, if_pos hfull, Shape.grownSize] at hsame
      split_ifs at hsame <;> omega
    obtain ⟨x, hx, hfind⟩ := hinv.freeSlots_rest
      (o := { o with remainingQuantity := o.effective }) hfree hfit
    obtain ⟨-, hfs, -⟩ := hinv₁.cancel_slots hfind
    rw [hx]
    exact hfs

/-! ### Exactness -/

/-- What `cancelOrder` does with any id. -/
structure CancelsExactly (b : PoolOrderBook) (id : OrderId) : Prop where
  flag : (b.cancelOrder id).1 = true ↔ b.Rests id
  found : (b.cancelOrder id).1 = true →
    ∃ o xs ys, o.orderId = id ∧ TakenOut b (b.cancelOrder id).2 o xs ys
  notFound : (b.cancelOrder id).1 = false → (b.cancelOrder id).2 = b

/-- A caller cannot tell in which order the two ids were cancelled. -/
structure CancelsCommute (b : PoolOrderBook) (id id' : OrderId) : Prop where
  flag : ((b.cancelOrder id').2.cancelOrder id).1 = (b.cancelOrder id).1
  flag' : ((b.cancelOrder id).2.cancelOrder id').1 = (b.cancelOrder id').1
  indistinct : Indistinct ((b.cancelOrder id).2.cancelOrder id').2
    ((b.cancelOrder id').2.cancelOrder id).2
  capacity : ((b.cancelOrder id).2.cancelOrder id').2.poolCapacity =
    ((b.cancelOrder id').2.cancelOrder id).2.poolCapacity

/-- The pool `b₂`, after a submission and its cancel, is again what `b` was before them. -/
structure Restored (b b₁ b₂ : PoolOrderBook) : Prop where
  alike : Alike b₂ b
  freeHead : b₁.poolCapacity = b.poolCapacity → b₂.freeHead = b.freeHead
  freeSlots : b₁.poolCapacity = b.poolCapacity → b₂.freeSlots = b.freeSlots

/-- In every reachable state a cancel takes out exactly its order, cancels of distinct ids commute,
    and the cancel of a limit order that crossed nothing undoes its submission. -/
theorem cancel_exact (h : b.Reachable) : (∀ id, b.CancelsExactly id) ∧
    (∀ id id', id ≠ id' → b.CancelsCommute id id') ∧
    ∀ o out, o.type = .limit → ¬ b.Rests o.orderId →
      (∀ p ∈ b.best o.side.opp, ¬ o.Reaches p) → (b.submitOrder o out).2.2.Fits →
      Restored b (b.submitOrder o out).2.2
        ((b.submitOrder o out).2.2.cancelOrder o.orderId).2 := by
  have hgood := h.good
  refine ⟨fun id => ?_, fun id id' hne => ?_, fun o out hl hfresh hcross hfit => ?_⟩
  · exact ⟨hgood.1.cancelOrder_flag, hgood.takenOut, cancelOrder_of_not_found⟩
  · obtain ⟨hflag, htwin⟩ := hgood.cancel_comm hne.symm
    obtain ⟨hflag', -⟩ := hgood.cancel_comm hne
    refine ⟨hflag', hflag, htwin.indistinct, ?_⟩
    rw [capacity_cancelOrder, capacity_cancelOrder, capacity_cancelOrder, capacity_cancelOrder]
  · by_cases ha : b.book.Accepts o
    · obtain ⟨hinv₂, hbook, hfree⟩ := hgood.cancel_submitted ha hl hcross hfit
      refine ⟨hinv₂.alike hgood.1 hbook, fun hsame => ?_, hfree⟩
      rw [hinv₂.shape.free.start, hfree hsame, ← hgood.1.shape.free.start]
    · -- a submission that is rejected leaves nothing to cancel
      have hsame : (b.submitOrder o out).2.2 = b := by
        rw [PoolOrderBook.submitOrder_eq hgood.1, if_neg ha]
      have hcancel : (b.cancelOrder o.orderId).2 = b := by
        refine cancelOrder_of_not_found ?_
        rw [Bool.eq_false_iff, Ne, hgood.1.cancelOrder_flag]
        exact hfresh
      rw [hsame, hcancel]
      exact ⟨hgood.1.alike hgood.1 rfl, fun _ => rfl, fun _ => rfl⟩

/-- At the end of the day orders 1 and 6 rest at one price; a new order joins them and leaves. -/
theorem cancel_exact_close :
    let o : Order := { orderId := 8, price := 100, initialQuantity := 5 }
    tradingDayClose.CancelsExactly 1 ∧ tradingDayClose.CancelsCommute 1 6 ∧
    Restored tradingDayClose (tradingDayClose.submitOrder o []).2.2
      ((tradingDayClose.submitOrder o []).2.2.cancelOrder 8).2 := by
  obtain ⟨hexact, hcomm, hundo⟩ := cancel_exact tradingDayClose_reachable
  have hfresh : ¬ tradingDayClose.Rests 8 := by
    rw [← tradingDayClose_reachable.good.1.cancelOrder_flag]
    decide
  have hbest : tradingDayClose.best .sell = none := by decide
  refine ⟨hexact 1, hcomm 1 6 (by decide), hundo _ [] rfl hfresh (fun p hp => ?_) (by decide)⟩
  exact absurd (hbest.symm.trans hp) nofun

end PoolOrderBook

end Titan
