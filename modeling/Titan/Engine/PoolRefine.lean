import Titan.Engine.PoolMatch

/-! Every entry point of the pool does what the book says.

    `Inv` is what every call leaves behind. From it each call is one step of `Book`: the same answer,
    the same trades behind those already there, the book of the result. -/

namespace Titan
open Schemes

namespace PoolOrderBook
variable {b : PoolOrderBook} {s : Side} {p : Price} {i x : UInt32} {o : Order} {id : OrderId}

/-- What every call leaves behind. -/
structure Inv (b : PoolOrderBook) : Prop where
  shape : b.Shape []
  indexed : b.Indexed
  noEmptyLevel : b.NoEmptyLevel

/-! ### Reading the book off the pool -/

theorem orders_book (b : PoolOrderBook) : b.book.orders = b.live.map b.order := by
  rw [Book.orders, book, resting, resting, live, List.map_append]

theorem Indexed.ids (h : b.Indexed) (hs : b.Shape []) :
    (b.book.orders.map (·.orderId)).Nodup := by
  rw [orders_book, List.map_map]
  exact hs.live_nodup.map_on fun i hi j hj hid => h.eq_of_id hi hj hid

/-- A queued slot sits in one level, on the side and at the price of its order. -/
theorem Shape.of_queued {held : List UInt32} (h : b.Shape held) (hi : i ∈ b.queued s) :
    (b.order i).side = s ∧ ∃ pre l post xs ys,
      (b.levels s).entries = pre ++ ((b.order i).price, l) :: post ∧
        b.levelSlots l = xs ++ i :: ys := by
  obtain ⟨⟨p, l⟩, he, hil⟩ := List.mem_flatMap.mp hi
  obtain ⟨hside, hprice⟩ := (h.level s (p, l) he).orders i hil
  obtain ⟨pre, post, hcut⟩ := List.mem_iff_append.mp he
  obtain ⟨xs, ys, hxs⟩ := List.mem_iff_append.mp hil
  exact ⟨hside, pre, l, post, xs, ys, hprice ▸ hcut, hxs⟩

namespace Inv

/-- The id index answers as a search through the book does. -/
theorem getOrder_eq (h : b.Inv) (id : OrderId) : b.getOrder id = b.book.find? id := by
  rw [getOrder]
  cases hf : b.orderIndex.find? id with
  | none =>
    rw [Option.map_none, eq_comm, Book.find?_eq_none_iff, orders_book]
    intro o ho hid
    obtain ⟨i, hi, rfl⟩ := List.mem_map.mp ho
    rw [(h.indexed.find id i).mpr ⟨hi, hid⟩] at hf
    cases hf
  | some i =>
    obtain ⟨hi, hid⟩ := (h.indexed.find id i).mp hf
    rw [Option.map_some, eq_comm, Book.find?_eq_some_iff (h.indexed.ids h.shape), orders_book]
    exact ⟨List.mem_map_of_mem hi, hid⟩

theorem hasOrder_eq (h : b.Inv) (id : OrderId) : b.hasOrder id = (b.book.find? id).isSome := by
  rw [← h.getOrder_eq, getOrder, Option.isSome_map, hasOrder]

theorem index_none_iff (h : b.Inv) : b.orderIndex.find? id = none ↔ b.book.find? id = none := by
  rw [← h.getOrder_eq, getOrder, Option.map_eq_none_iff]

theorem totalOrders_eq (h : b.Inv) : b.totalOrders = b.book.orders.length := by
  rw [totalOrders, h.indexed.size, orders_book, List.length_map]

/-- The first level holds the first order of the side. -/
theorem best_eq (h : b.Inv) (s : Side) :
    (b.levels s).begin?.map (·.1) = b.book.bestPrice s := by
  rw [SortedMap.begin?, Book.bestPrice, book]
  cases hc : (b.levels s).entries with
  | nil => rw [resting, queued, hc]; rfl
  | cons e post =>
    obtain ⟨p, l⟩ := e
    obtain ⟨xs, hl⟩ := h.shape.slots_of_head (cut_head hc)
      (h.noEmptyLevel s (p, l) (by rw [hc]; exact List.mem_cons_self ..))
    have hpx : (b.order l.headIdx).price = p := ((h.shape.level_of_cut (cut_head hc)).orders _
      (by rw [hl]; exact List.mem_cons_self ..)).2
    rw [(resting_of_head hc hl).2, List.head?_cons, List.head?_cons, Option.map_some,
      Option.map_some, hpx]

theorem bestBid_eq (h : b.Inv) : b.bestBid = b.book.bestPrice .buy := h.best_eq .buy

theorem bestAsk_eq (h : b.Inv) : b.bestAsk = b.book.bestPrice .sell := h.best_eq .sell

end Inv

/-- The orders of the level under `p`, head to tail. -/
def levelOrders (b : PoolOrderBook) (s : Side) (p : Price) : List Order :=
  match (b.levels s).find? p with
  | none => []
  | some l => (b.levelSlots l).map b.order

/-- A run of levels whose keys are not `p` holds no order at `p`. -/
theorem Shape.filter_price_eq_nil {held : List UInt32} (h : b.Shape held)
    {es : List (Price × PriceLevel)} (hsub : ∀ e ∈ es, e ∈ (b.levels s).entries)
    (hne : ∀ e ∈ es, e.1 ≠ p) :
    ((es.flatMap fun e => b.levelSlots e.2).map b.order).filter (fun o => o.price = p) = [] := by
  rw [List.filter_eq_nil_iff]
  intro o ho
  obtain ⟨i, hi, rfl⟩ := List.mem_map.mp ho
  obtain ⟨e, he, hie⟩ := List.mem_flatMap.mp hi
  rw [decide_eq_true_eq, ((h.level s e (hsub e he)).orders i hie).2]
  exact hne e he

/-- The queue of a level is what the book lists at its price. -/
theorem Shape.levelOrders_eq {held : List UInt32} (h : b.Shape held) (s : Side) (p : Price) :
    b.levelOrders s p = b.book.queueAt s p := by
  rw [levelOrders, Book.queueAt, book, resting, queued]
  rcases (b.levels s).split p with ⟨l, pre, post, hc⟩ | ⟨pre, post, hc, hpre, hpost⟩
  · have hin : ∀ i ∈ b.levelSlots l, (b.order i).price = p := fun i hi =>
      ((h.level_of_cut hc).orders i hi).2
    have hself : ((b.levelSlots l).map b.order).filter (fun o => o.price = p) =
        (b.levelSlots l).map b.order := by
      rw [List.filter_eq_self]
      intro o ho
      obtain ⟨i, hi, rfl⟩ := List.mem_map.mp ho
      exact decide_eq_true (hin i hi)
    rw [SortedMap.find?_of_cut hc, hc, List.flatMap_append, List.flatMap_cons, List.map_append,
      List.map_append, List.filter_append, List.filter_append, hself,
      h.filter_price_eq_nil (fun e he => by rw [hc]; simp [he])
        (SortedMap.ne_of_mem_pre (SortedMap.lt_of_mem_pre hc)),
      h.filter_price_eq_nil (fun e he => by rw [hc]; simp [he])
        (SortedMap.ne_of_mem_post (SortedMap.lt_of_mem_post hc)), List.nil_append, List.append_nil]
  · rw [SortedMap.find?_of_gap hc hpre hpost]
    refine (h.filter_price_eq_nil (fun e he => he) fun e he => ?_).symm
    rw [hc, List.mem_append] at he
    exact he.elim (SortedMap.ne_of_mem_pre hpre e) (SortedMap.ne_of_mem_post hpost e)

/-- The keys of a side are the prices at which orders rest, each once. -/
theorem Inv.keys_perm (h : b.Inv) (s : Side) :
    ((b.levels s).entries.map (·.1)).Perm (b.book.prices s) := by
  refine (List.perm_ext_iff_of_nodup (b.levels s).keys_nodup (List.nodup_dedup _)).mpr fun p => ?_
  show _ ↔ p ∈ ((b.resting s).map (·.price)).dedup
  rw [List.mem_dedup, resting, List.map_map, List.mem_map, List.mem_map]
  constructor
  · rintro ⟨⟨q, l⟩, he, rfl⟩
    obtain ⟨pre, post, hc⟩ := List.mem_iff_append.mp he
    obtain ⟨xs, hl⟩ := h.shape.slots_of_head hc (h.noEmptyLevel s (q, l) he)
    have hmem : l.headIdx ∈ b.levelSlots l := by rw [hl]; exact List.mem_cons_self ..
    exact ⟨l.headIdx, Shape.levelSlots_subset he hmem,
      ((h.shape.level s (q, l) he).orders _ hmem).2⟩
  · rintro ⟨i, hi, rfl⟩
    obtain ⟨-, pre, l, post, -, -, hc, -⟩ := h.shape.of_queued hi
    exact ⟨(_, l), by rw [hc]; simp, rfl⟩

theorem Inv.levels_size (h : b.Inv) (s : Side) :
    (b.levels s).size = (b.book.prices s).length := by
  rw [SortedMap.size, ← (h.keys_perm s).length_eq, List.length_map]

/-! ### Empty pools -/

theorem inv_of_empty (hs : b.Shape []) (hidx : b.orderIndex = .empty)
    (hlv : ∀ t, (b.levels t).entries = []) : b.Inv ∧ b.book = fun _ => [] := by
  have hq : ∀ t, b.queued t = [] := fun t => by rw [queued, hlv]; rfl
  have hlive : b.live = [] := by rw [live, hq, hq]; rfl
  refine ⟨⟨hs, ?_, fun t e he => ?_⟩, ?_⟩
  · rw [Indexed, hidx, hlive]; exact .nil
  · rw [hlv] at he; cases he
  · funext t; rw [book, resting, hq]; rfl

theorem inv_ctor {n : ℕ} (h : n < 2 ^ 32) : (ctor n).Inv ∧ (ctor n).book = fun _ => [] :=
  inv_of_empty (shape_ctor h).1 rfl fun t => by cases t <;> rfl

theorem inv_clear (h : b.Inv) : b.clear.Inv ∧ b.clear.book = b.book.clear :=
  inv_of_empty (shape_clear h.shape.capacity).1 rfl fun t => by cases t <;> rfl

/-! ### Resting -/

theorem restAt_eq (b : PoolOrderBook) (s : Side) (p : Price) (x : UInt32) :
    b.restAt s p x = b.attach s p { b.levelAt s p with price := p } x := rfl

/-- Resting a detached slot puts it behind the orders that are no worse priced. -/
theorem restAt_spec (h : b.Shape [x]) (hne : b.NoEmptyLevel)
    (ho : (b.order x).side = s ∧ (b.order x).price = p) :
    (b.restAt s p x).Shape [] ∧ (b.restAt s p x).NoEmptyLevel ∧
    (b.restAt s p x).freeSlots = b.freeSlots ∧
    (∃ ys zs, b.queued s = ys ++ zs ∧ (b.restAt s p x).queued s = ys ++ x :: zs ∧
      (∀ j ∈ ys, ¬ better s p (b.order j).price) ∧ ∀ j ∈ zs, better s p (b.order j).price) ∧
    (b.restAt s p x).queued s.opp = b.queued s.opp := by
  have hrx : x.toNat < b.nodes.length := h.range_of_mem (.inr (.inl (by simp)))
  have hprice : ∀ {es : List (Price × PriceLevel)}, (∀ e ∈ es, e ∈ (b.levels s).entries) →
      ∀ j ∈ es.flatMap fun e => b.levelSlots e.2, ∃ e ∈ es, (b.order j).price = e.1 := by
    intro es hsub j hj
    obtain ⟨e, he, hje⟩ := List.mem_flatMap.mp hj
    exact ⟨e, he, ((h.level s e (hsub e he)).orders j hje).2⟩
  -- whether or not there is a level, its queue `xs` gets `x` as its last member
  obtain ⟨l, xs, pre, mid, post, hat, hc, hins, hl, hmid, hlt, hgt⟩ :
      ∃ l xs, ∃ pre mid post, ({ b.levelAt s p with price := p } : PriceLevel) = l ∧
        (b.levels s).entries = pre ++ mid ++ post ∧
        (∀ l', ((b.levels s).insert p l').entries = pre ++ (p, l') :: post) ∧
        b.LevelInv s p l xs ∧ mid.flatMap (fun e => b.levelSlots e.2) = xs ∧
        (∀ e ∈ pre, better s e.1 p) ∧ ∀ e ∈ post, better s p e.1 := by
    rcases (b.levels s).split p with ⟨l, pre, post, hc⟩ | ⟨pre, post, hc, hpre, hpost⟩
    · have hl := h.level_of_cut hc
      refine ⟨l, b.levelSlots l, pre, [(p, l)], post, ?_, by simp [hc],
        SortedMap.entries_insert_of_cut hc, hl, by simp, SortedMap.lt_of_mem_pre hc,
        SortedMap.lt_of_mem_post hc⟩
      rw [levelAt_of_cut hc, ← hl.price]
    · refine ⟨{ price := p }, [], pre, [], post, ?_, by simp [hc],
        SortedMap.entries_insert_of_gap hc hpre hpost, ⟨.empty, rfl, rfl, by simp⟩, rfl, hpre,
        hpost⟩
      rw [levelAt, SortedMap.find?_of_gap hc hpre hpost]
      rfl
  rw [restAt_eq, hat]
  obtain ⟨h1, h2, h3, h4⟩ := h.attach hc hins hl hmid ho
  have hq : b.queued s = pre.flatMap (fun e => b.levelSlots e.2) ++ xs ++
      post.flatMap (fun e => b.levelSlots e.2) := by
    rw [queued, hc, List.flatMap_append, List.flatMap_append, hmid]
  have hhead : (b.appendToLevel l x).2.headIdx ≠ invalidIdx := by
    show (if l.tailIdx ≠ invalidIdx then l.headIdx else x) ≠ invalidIdx
    split_ifs with ht
    · exact fun hh => ht (hl.links.tail_eq_nil_iff.mpr (hl.links.head_eq_nil_iff.mp hh))
    · exact h.ne_invalid hrx
  refine ⟨h1, fun t e he => ?_, h2, ⟨pre.flatMap (fun e => b.levelSlots e.2) ++ xs,
    post.flatMap (fun e => b.levelSlots e.2), hq, by rw [h3]; simp, fun j hj => ?_,
    fun j hj => ?_⟩, h4⟩
  · rcases s.eq_or_eq_opp t with rfl | rfl
    · rw [attach, setLevel, levels_setLevels, levels_appendToLevel, hins] at he
      rcases List.mem_append.mp he with he | he
      · exact hne _ e (by rw [hc]; simp [he])
      · rcases List.mem_cons.mp he with rfl | he
        · exact hhead
        · exact hne _ e (by rw [hc]; simp [he])
    · rw [attach, setLevel, levels_setLevels_opp, levels_appendToLevel] at he
      exact hne _ e he
  · rcases List.mem_append.mp hj with hj | hj
    · obtain ⟨e, he, hje⟩ := hprice (fun e he => by rw [hc]; simp [he]) j hj
      rw [hje]; exact better_asymm (hlt e he)
    · rw [(hl.orders j hj).2]; exact better_irrefl s p
  · obtain ⟨e, he, hje⟩ := hprice (fun e he => by rw [hc]; simp [he]) j hj
    rw [hje]; exact hgt e he

theorem rest_eq (b : PoolOrderBook) (o : Order) : b.rest o = ({ (b.allocateNode o).2 with
    orderIndex := (b.allocateNode o).2.orderIndex.insert o.orderId (b.allocateNode o).1 } :
      PoolOrderBook).restAt o.side o.price (b.allocateNode o).1 := by
  rw [rest]; cases o.side <;> rfl

theorem levels_allocateNode : (b.allocateNode o).2.levels s = b.levels s := by
  rw [allocateNode_eq]
  split_ifs <;> cases s <;> rfl

theorem orderIndex_allocateNode : (b.allocateNode o).2.orderIndex = b.orderIndex := by
  rw [allocateNode_eq]
  split_ifs <;> rfl

@[simp] theorem length_restAt : (b.restAt s p x).nodes.length = b.nodes.length := by
  simp [restAt_eq, attach, setLevel]

@[simp] theorem order_restAt : (b.restAt s p x).order = b.order := by
  simp [restAt_eq, attach, setLevel]

@[simp] theorem orderIndex_restAt : (b.restAt s p x).orderIndex = b.orderIndex := by
  simp [restAt_eq, attach, setLevel]

/-- Resting an order under a new id is one step of the book. -/
theorem rest_spec (h : b.Inv) (hnew : b.orderIndex.find? o.orderId = none)
    (hcap : (b.rest o).nodes.length < 2 ^ 32) : (b.rest o).Inv ∧ (b.rest o).book = b.book.rest o := by
  rw [rest_eq] at hcap ⊢
  obtain ⟨hs, hox, hq, hord, -⟩ := h.shape.allocateNode (o := o) (by simpa using hcap)
  set x := (b.allocateNode o).1
  set b₂ : PoolOrderBook := { (b.allocateNode o).2 with
    orderIndex := (b.allocateNode o).2.orderIndex.insert o.orderId x } with hb₂
  have hs₂ : b₂.Shape [x] := hs.setIndex _
  have hlv : ∀ t, b₂.levels t = b.levels t := fun t => by
    rw [← levels_allocateNode (b := b) (o := o)]; cases t <;> rfl
  have hq₂ : ∀ t, b₂.queued t = b.queued t := fun t => by rw [← hq t]; cases t <;> rfl
  have hox₂ : b₂.order x = o := hox
  have hord₂ : ∀ t, ∀ j ∈ b.queued t, b₂.order j = b.order j := hord
  have hidx₂ : b₂.orderIndex = b.orderIndex.insert o.orderId x := by
    rw [hb₂, orderIndex_allocateNode]
  have hne₂ : b₂.NoEmptyLevel := fun t e he => h.noEmptyLevel t e (hlv t ▸ he)
  obtain ⟨r1, r2, -, ⟨ys, zs, r3, r4, r5, r6⟩, r7⟩ :=
    restAt_spec (s := o.side) (p := o.price) hs₂ hne₂ (by rw [hox₂]; exact ⟨rfl, rfl⟩)
  rw [hq₂] at r3 r7
  have hmem : ∀ {j}, j ∈ b.live → b₂.order j = b.order j := fun {j} hj =>
    ((b.mem_live o.side).mp hj).elim (hord₂ _ j) (hord₂ _ j)
  have hperm : (b₂.restAt o.side o.price x).live.Perm (x :: b.live) := by
    refine ((live_perm _ o.side).trans ?_).trans ((b.live_perm o.side).symm.cons x)
    rw [r4, r7, r3, ← List.cons_append]
    exact List.perm_middle.append_right _
  refine ⟨⟨r1, ?_, r2⟩, Book.ext_sides o.side ?_ ?_⟩
  · refine h.indexed.insert hperm (fun j hj => by rw [order_restAt, hmem hj]) ?_ ?_
    · rw [order_restAt, hox₂]; exact hnew
    · rw [order_restAt, hox₂, orderIndex_restAt, hidx₂]
  · have hys : ∀ j ∈ ys, b₂.order j = b.order j := fun j hj =>
      hord₂ o.side j (by rw [r3]; exact List.mem_append_left _ hj)
    have hzs : ∀ j ∈ zs, b₂.order j = b.order j := fun j hj =>
      hord₂ o.side j (by rw [r3]; exact List.mem_append_right _ hj)
    have hbook : b.book o.side = ys.map b.order ++ zs.map b.order := by
      rw [book, resting, r3, List.map_append]
    rw [Book.rest, Book.setSide_self, hbook, place_append, place_of_better]
    · rw [book, resting, order_restAt, r4, List.map_append, List.map_cons, hox₂,
        map_order_congr hys, map_order_congr hzs]
    · intro y hy
      obtain ⟨j, hj, rfl⟩ := List.mem_map.mp hy
      rw [← hzs j hj]; exact r6 j hj
    · intro y hy
      obtain ⟨j, hj, rfl⟩ := List.mem_map.mp hy
      rw [← hys j hj]; exact r5 j hj
  · rw [Book.rest, Book.setSide_opp, book, resting, order_restAt, r7]
    exact map_order_congr fun j hj => hord₂ _ j hj

/-! ### Submitting -/

/-- The matching call of a submission, before its loops start. -/
def entry (b : PoolOrderBook) (o : Order) (out : List Trade) : Matching PoolOrderBook :=
  ⟨b, { o with remainingQuantity := o.effective }, out⟩

/-- The matching call of a submission, after its loops. -/
def matched (b : PoolOrderBook) (o : Order) (out : List Trade) : Matching PoolOrderBook :=
  matchSide o.side (b.entry o out)

/-- The checks of a submission, by the id index. -/
def Checks (b : PoolOrderBook) (o : Order) : Prop :=
  o.initialQuantity ≠ 0 ∧ ¬ (o.type = .limit ∧ o.price = 0) ∧ b.orderIndex.find? o.orderId = none

instance (b : PoolOrderBook) (o : Order) : Decidable (b.Checks o) :=
  inferInstanceAs (Decidable (_ ∧ _ ∧ _))

/-- A submission passes three checks, matches, and rests what is left of a limit order. -/
theorem submitOrder_of_checks (b : PoolOrderBook) (o : Order) (out : List Trade) :
    b.submitOrder o out =
      if b.Checks o then
        if (b.matched o out).incoming.remainingQuantity ≠ 0 ∧
          (b.matched o out).incoming.type = .limit
        then (true, (b.matched o out).outTrades,
          (b.matched o out).book.rest (b.matched o out).incoming)
        else (true, (b.matched o out).outTrades, (b.matched o out).book)
      else (false, out, b) := by
  have hdup : (b.orderIndex.find? o.orderId).isSome ↔ ¬ b.orderIndex.find? o.orderId = none := by
    rw [Option.isSome_iff_ne_none]
  have hpos : ∀ q : Quantity, q > 0 ↔ q ≠ 0 := fun q => by grind
  rw [submitOrder, o.ite_effective]
  simp only [hdup, hpos]
  by_cases h1 : o.initialQuantity = 0
  · rw [if_pos h1, if_neg fun ha => ha.1 h1]
  by_cases h2 : o.type = .limit ∧ o.price = 0
  · rw [if_neg h1, if_pos h2, if_neg fun ha => ha.2.1 h2]
  by_cases h3 : b.orderIndex.find? o.orderId = none
  · have ha : b.Checks o := ⟨h1, h2, h3⟩
    rw [if_neg h1, if_neg h2, if_neg (not_not.mpr h3), if_pos ha, matched, entry]
    cases o.side <;> rfl
  · rw [if_neg h1, if_neg h2, if_pos h3, if_neg fun ha => h3 ha.2.2]

theorem Inv.checks_iff (h : b.Inv) : b.Checks o ↔ b.book.Accepts o := by
  rw [Checks, Book.Accepts, h.index_none_iff]

/-- The checks as the book makes them. -/
theorem submitOrder_eq (h : b.Inv) (o : Order) (out : List Trade) : b.submitOrder o out =
    if b.book.Accepts o then
      if (b.matched o out).incoming.remainingQuantity ≠ 0 ∧
        (b.matched o out).incoming.type = .limit
      then (true, (b.matched o out).outTrades,
        (b.matched o out).book.rest (b.matched o out).incoming)
      else (true, (b.matched o out).outTrades, (b.matched o out).book)
    else (false, out, b) := by
  rw [submitOrder_of_checks]
  simp only [h.checks_iff]

/-- Matching fills the submission greedily and touches nothing else. -/
theorem matched_spec (h : b.Inv) (o : Order) (out : List Trade) :
    Between o.side (b.entry o out) (b.matched o out) ∧
    (b.matched o out).outTrades = out ++ (b.book.fillOf o).trades ∧
    (b.matched o out).incoming = { o with remainingQuantity := (b.book.fillOf o).left } ∧
    (b.matched o out).book.book = b.book.setSide o.side.opp (b.book.fillOf o).rest := by
  obtain ⟨-, hb, hout⟩ := matchSide_spec (m := b.entry o out) (a := o.side) h.shape h.indexed
    h.noEmptyLevel rfl
  have hfill : outcome o.side (b.entry o out) = (out ++ (b.book.fillOf o).trades,
      (b.book.fillOf o).left, (b.book.fillOf o).rest) := by
    rw [outcome, entry, fill_remaining]; rfl
  rw [hfill, Prod.mk.injEq, Prod.mk.injEq] at hout
  refine ⟨hb, hout.1, ?_, Book.ext_sides o.side ?_ ?_⟩
  · rw [← hout.2.1]; exact hb.run.incoming
  · rw [Book.setSide_of_opp]; exact hb.run.ownResting
  · rw [Book.setSide_self]; exact hout.2.2

theorem Between.inv {a : Side} {m₀ m : Matching PoolOrderBook} (h : Between a m₀ m) :
    m.book.Inv := ⟨h.run.shape, h.run.indexed, h.noEmptyLevel⟩

/-- A submission is one step of the book. -/
theorem submitOrder_spec (h : b.Inv) (o : Order) (out : List Trade)
    (hcap : (b.submitOrder o out).2.2.poolCapacity < 2 ^ 32) :
    (b.submitOrder o out).2.2.Inv ∧
    ((b.submitOrder o out).1, (b.submitOrder o out).2.1, (b.submitOrder o out).2.2.book) =
      ((b.book.submit o).1, out ++ (b.book.submit o).2.1, (b.book.submit o).2.2) := by
  rw [submitOrder_eq h, Book.submit] at *
  by_cases ha : b.book.Accepts o
  · simp only [if_pos ha] at hcap ⊢
    obtain ⟨hb, htr, hinc, hbook⟩ := matched_spec h o out
    rw [hinc] at hcap ⊢
    rw [Book.accept, htr]
    dsimp only at hcap ⊢
    split_ifs at hcap ⊢ with hrest
    · obtain ⟨r1, r2⟩ := rest_spec (o := { o with remainingQuantity := (b.book.fillOf o).left })
        hb.inv (hb.inv.index_none_iff.mpr (hbook ▸ Book.find?_fill_none ha.2.2)) hcap
      exact ⟨r1, by rw [r2, hbook]⟩
    · exact ⟨hb.inv, by rw [hbook]⟩
  · simp only [if_neg ha, List.append_nil]
    exact ⟨h, trivial⟩

/-- The flag of a submission tells whether it was accepted. -/
theorem submitOrder_flag (h : b.Inv) (o : Order) (out : List Trade) :
    (b.submitOrder o out).1 = true ↔ b.book.Accepts o := by
  rw [submitOrder_eq h]
  split_ifs with ha <;> simp [ha]

/-- An accepted submission, as one step of the book. -/
theorem submitOrder_accepted (h : b.Inv) {out : List Trade} (ha : b.book.Accepts o)
    (hcap : (b.submitOrder o out).2.2.poolCapacity < 2 ^ 32) :
    (b.submitOrder o out).2.2.Inv ∧
    (b.submitOrder o out).2.1 = out ++ (b.book.fillOf o).trades ∧
    (b.submitOrder o out).2.2.book = b.book.accept o := by
  obtain ⟨h1, h2⟩ := submitOrder_spec h o out hcap
  rw [Book.submit, if_pos ha, Prod.mk.injEq, Prod.mk.injEq] at h2
  exact ⟨h1, h2.2.1, h2.2.2⟩

/-! ### Cancelling -/

theorem unlink_of_cut {l : PriceLevel} {pre post : List (Price × PriceLevel)}
    (hc : (b.levels s).entries = pre ++ (p, l) :: post) : b.unlink s p i =
      if (b.removeFromLevel l i).2.empty then (b.detach s p l i).eraseLevel s p
      else b.detach s p l i := by
  rw [unlink, SortedMap.find?_of_cut hc]
  rfl

theorem order_eraseLevel : (b.eraseLevel s p).order = b.order := order_setLevels _

theorem order_detach (l : PriceLevel) : (b.detach s p l i).order = b.order := by
  rw [detach, setLevel, order_setLevels, order_removeFromLevel]

theorem orderIndex_detach (l : PriceLevel) : (b.detach s p l i).orderIndex = b.orderIndex := by
  rw [detach, setLevel, orderIndex_setLevels, orderIndex_removeFromLevel]

theorem order_unlink : (b.unlink s p i).order = b.order := by
  rcases (b.levels s).split p with ⟨l, pre, post, hc⟩ | ⟨pre, post, hc, hpre, hpost⟩
  · rw [unlink_of_cut hc]
    split_ifs
    · rw [order_eraseLevel, order_detach]
    · rw [order_detach]
  · rw [unlink, SortedMap.find?_of_gap hc hpre hpost]

theorem orderIndex_unlink : (b.unlink s p i).orderIndex = b.orderIndex := by
  rcases (b.levels s).split p with ⟨l, pre, post, hc⟩ | ⟨pre, post, hc, hpre, hpost⟩
  · rw [unlink_of_cut hc]
    split_ifs
    · rw [eraseLevel, orderIndex_setLevels, orderIndex_detach]
    · rw [orderIndex_detach]
  · rw [unlink, SortedMap.find?_of_gap hc hpre hpost]

/-- Unlinking a queued slot takes that slot and nothing else off the queues. -/
theorem unlink_spec (h : b.Inv) (hi : i ∈ b.queued s) :
    (b.unlink s (b.order i).price i).Shape [i] ∧
    (b.unlink s (b.order i).price i).NoEmptyLevel ∧
    (b.unlink s (b.order i).price i).freeSlots = b.freeSlots ∧
    (∃ ys zs, b.queued s = ys ++ i :: zs ∧
      (b.unlink s (b.order i).price i).queued s = ys ++ zs) ∧
    (b.unlink s (b.order i).price i).queued s.opp = b.queued s.opp := by
  obtain ⟨-, pre, l, post, xs, ys, hc, hl⟩ := h.shape.of_queued hi
  obtain ⟨d1, d2, d3, d4, d5⟩ := h.shape.detach hc hl
  have hq : b.queued s = (pre.flatMap (fun e => b.levelSlots e.2) ++ xs) ++ i ::
      (ys ++ post.flatMap (fun e => b.levelSlots e.2)) := by
    rw [queued, hc, List.flatMap_append, List.flatMap_cons, hl]
    simp
  have hd : (b.detach s (b.order i).price l i).queued s =
      (pre.flatMap (fun e => b.levelSlots e.2) ++ xs) ++
        (ys ++ post.flatMap (fun e => b.levelSlots e.2)) := by
    rw [d4]; simp
  have hent : ((b.detach s (b.order i).price l i).levels s).entries =
      pre ++ ((b.order i).price, (b.removeFromLevel l i).2) :: post := by
    rw [detach, setLevel, levels_setLevels,
      SortedMap.entries_insert_of_cut (by rw [levels_removeFromLevel]; exact hc)]
  have hopp : (b.detach s (b.order i).price l i).levels s.opp = b.levels s.opp := by
    rw [detach, setLevel, levels_setLevels_opp, levels_removeFromLevel]
  have hold : ∀ e, e ∈ pre ∨ e ∈ post → e.2.headIdx ≠ invalidIdx := fun e he =>
    h.noEmptyLevel s e (by rw [hc]; simp only [List.mem_append, List.mem_cons]; tauto)
  rw [unlink_of_cut hc, PriceLevel.empty]
  simp only [decide_eq_true_eq]
  split_ifs with hempty
  · -- the slot was the last of its level
    have hnil := d3.links.head_eq_nil_iff.mp hempty
    have hslots := (d1.level_of_cut hent).links.head_eq_nil_iff.mp hempty
    obtain ⟨e1, e2, e3, e4⟩ := d1.eraseLevel hent hslots
    refine ⟨e1, fun t e he => ?_, e2.trans d2, ⟨_, _, hq, e3.trans hd⟩, e4.trans d5⟩
    rcases s.eq_or_eq_opp t with rfl | rfl
    · rw [eraseLevel, levels_setLevels, SortedMap.entries_erase_of_cut hent,
        List.mem_append] at he
      exact hold e he
    · rw [eraseLevel, levels_setLevels_opp, hopp] at he
      exact h.noEmptyLevel _ e he
  · refine ⟨d1, fun t e he => ?_, d2, ⟨_, _, hq, hd⟩, d5⟩
    rcases s.eq_or_eq_opp t with rfl | rfl
    · rw [hent, List.mem_append, List.mem_cons] at he
      rcases he with he | rfl | he
      · exact hold e (.inl he)
      · exact hempty
      · exact hold e (.inr he)
    · rw [hopp] at he
      exact h.noEmptyLevel _ e he

/-- The pool after a cancel that finds the order in slot `i`. -/
theorem cancelOrder_of_find (hf : b.orderIndex.find? id = some i) : b.cancelOrder id =
    (true, { ((b.unlink (b.order i).side (b.order i).price i).freeNode i) with
      orderIndex :=
        ((b.unlink (b.order i).side (b.order i).price i).freeNode i).orderIndex.erase id }) := by
  rw [cancelOrder, hf]
  cases h : (b.order i).side <;> simp only [h]

/-- A cancel is one step of the book. -/
theorem cancelOrder_spec (h : b.Inv) (id : OrderId) : (b.cancelOrder id).2.Inv ∧
    ((b.cancelOrder id).1, (b.cancelOrder id).2.book) = b.book.cancel id := by
  cases hf : b.orderIndex.find? id with
  | none =>
    have hnone := h.index_none_iff.mp hf
    rw [cancelOrder, hf, Book.cancel_of_none hnone]
    exact ⟨h, rfl⟩
  | some i =>
    obtain ⟨hi, hid⟩ := (h.indexed.find id i).mp hf
    obtain ⟨s, his⟩ := b.exists_queued hi
    have hside : (b.order i).side = s := (h.shape.of_queued his).1
    rw [cancelOrder_of_find hf, hside]
    obtain ⟨u1, u2, u3, ⟨ys, zs, u4, u5⟩, u6⟩ := unlink_spec h his
    set b₁ := b.unlink s (b.order i).price i with hb₁
    obtain ⟨f1, f2, f3⟩ := u1.freeNode
    set b₂ : PoolOrderBook := { (b₁.freeNode i) with
      orderIndex := (b₁.freeNode i).orderIndex.erase id } with hb₂
    have hs₂ : b₂.Shape [] := f1.setIndex _
    have hord₂ : b₂.order = b.order := by
      show (b₁.freeNode i).order = _
      rw [order_freeNode, hb₁, order_unlink]
    have hq₂ : ∀ t, b₂.queued t = b₁.queued t := fun t => by rw [← f3 t]; cases t <;> rfl
    have hidx₂ : b₂.orderIndex = b.orderIndex.erase (b.order i).orderId := by
      show (b₁.freeNode i).orderIndex.erase id = _
      rw [orderIndex_freeNode, hb₁, orderIndex_unlink, hid]
    have hperm : b.live.Perm (i :: b₂.live) := by
      refine (b.live_perm s).trans (.trans ?_ ((b₂.live_perm s).symm.cons i))
      rw [hq₂, hq₂, u5, u6, u4, ← List.cons_append]
      exact List.perm_middle.append_right _
    refine ⟨⟨hs₂, h.indexed.remove hperm (fun j _ => by rw [hord₂]) hidx₂,
      fun t e he => u2 t e ?_⟩, ?_⟩
    · rw [← levels_freeNode (b := b₁) (i := i)]
      cases t <;> exact he
    · rw [← hid]
      refine (Book.cancel_of_cut (s := s) (ys.map b.order) (zs.map b.order)
        (h.indexed.ids h.shape) ?_ ?_ ?_).symm
      · rw [book, resting, u4, List.map_append, List.map_cons]
      · rw [book, resting, hord₂, hq₂, u5, List.map_append]
      · rw [book, resting, hord₂, hq₂, u6]; rfl

theorem book_cancelOrder (h : b.Inv) (id : OrderId) :
    (b.cancelOrder id).2.book = (b.book.cancel id).2 :=
  congrArg Prod.snd (cancelOrder_spec h id).2

/-- A cancel reports whether the order rests. -/
theorem flag_cancelOrder (h : b.Inv) (id : OrderId) :
    (b.cancelOrder id).1 = (b.book.find? id).isSome :=
  congrArg Prod.fst (cancelOrder_spec h id).2

end PoolOrderBook

end Titan
