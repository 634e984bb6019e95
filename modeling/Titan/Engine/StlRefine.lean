import Titan.Engine.Stl
import Titan.Engine.PoolRefine

/-! The reference engine does what the book says.

    The argument is the one for the pool without the pointers: queues are lists already, so what is
    left is the id index and the iterators in it. -/

namespace Titan
open Schemes

/-- What the index holds for a node. -/
def ListNode.entry (nd : ListNode) : OrderId × OrderLocation :=
  (nd.order.orderId, ⟨nd.order.side, nd.order.price, nd.it⟩)

theorem ListNode.entry_of_core {nd : ListNode} {o : Order} (h : o.core = nd.order.core) :
    ListNode.entry { nd with order := o } = nd.entry := by
  simp only [Order.core, Order.mk.injEq] at h
  simp only [entry, h]

namespace StlOrderBook
variable {b b' : StlOrderBook} {s a : Side} {p : Price} {q xs ys : List ListNode} {nd : ListNode}
  {o : Order} {id : OrderId} {pre post : List (Price × List ListNode)}

/-! ### The book behind the engine -/

/-- The nodes of all resting orders. -/
def live (b : StlOrderBook) : List ListNode := b.nodes .buy ++ b.nodes .sell

/-- The resting orders of a side, queue by queue from the best price. -/
def resting (b : StlOrderBook) (s : Side) : List Order := (b.nodes s).map (·.order)

/-- The book that the engine stands for. -/
def book (b : StlOrderBook) : Book := b.resting

/-- Queues hold orders of their side and price, iterators are unique, and the index is the resting
    orders. Queues may be empty: this also holds in the middle of a call. -/
structure Placed (b : StlOrderBook) : Prop where
  level : ∀ s, ∀ e ∈ (b.levels s).entries, ∀ nd ∈ e.2, nd.order.side = s ∧ nd.order.price = e.1
  fresh : ∀ nd ∈ b.live, nd.it < b.nextIt
  its : (b.live.map (·.it)).Nodup
  index : b.orderIndex.entries.Perm (b.live.map ListNode.entry)

def NoEmptyLevel (b : StlOrderBook) : Prop := ∀ s, ∀ e ∈ (b.levels s).entries, e.2 ≠ []

/-- What every call leaves behind. -/
structure Inv (b : StlOrderBook) : Prop where
  placed : b.Placed
  noEmptyLevel : b.NoEmptyLevel

@[simp] theorem levels_setLevels (m : SortedMap (better s) (List ListNode)) :
    (b.setLevels s m).levels s = m := by cases s <;> rfl

@[simp] theorem levels_setLevels_opp (m : SortedMap (better s) (List ListNode)) :
    (b.setLevels s m).levels s.opp = b.levels s.opp := by cases s <;> rfl

@[simp] theorem orderIndex_setLevels (m : SortedMap (better s) (List ListNode)) :
    (b.setLevels s m).orderIndex = b.orderIndex := by cases s <;> rfl

@[simp] theorem nextIt_setLevels (m : SortedMap (better s) (List ListNode)) :
    (b.setLevels s m).nextIt = b.nextIt := by cases s <;> rfl

theorem live_perm (b : StlOrderBook) (s : Side) : b.live.Perm (b.nodes s ++ b.nodes s.opp) := by
  cases s with
  | buy => exact .refl _
  | sell => exact List.perm_append_comm

theorem mem_live (b : StlOrderBook) (s : Side) :
    nd ∈ b.live ↔ nd ∈ b.nodes s ∨ nd ∈ b.nodes s.opp := by
  rw [(b.live_perm s).mem_iff, List.mem_append]

theorem nodes_of_cut (hc : (b.levels s).entries = pre ++ (p, q) :: post) :
    b.nodes s = pre.flatMap (·.2) ++ (q ++ post.flatMap (·.2)) := by
  rw [nodes, hc, List.flatMap_append, List.flatMap_cons]

theorem queueAt_of_cut (hc : (b.levels s).entries = pre ++ (p, q) :: post) : b.queueAt s p = q := by
  rw [queueAt, SortedMap.find?_of_cut hc, Option.getD_some]

theorem nodes_opp (h : b'.levels s.opp = b.levels s.opp) : b'.nodes s.opp = b.nodes s.opp := by
  rw [nodes, nodes, h]

theorem orders_book (b : StlOrderBook) : b.book.orders = b.live.map (·.order) := by
  rw [Book.orders, book, resting, resting, live, List.map_append]

namespace Placed

theorem find (h : b.Placed) (id : OrderId) (loc : OrderLocation) :
    b.orderIndex.find? id = some loc ↔ ∃ nd ∈ b.live, nd.entry = (id, loc) := by
  rw [SortedMap.find?_iff_of_perm h.index, List.mem_map]

theorem index_none_iff (h : b.Placed) :
    b.orderIndex.find? id = none ↔ b.book.find? id = none := by
  rw [Book.find?_eq_none_iff, orders_book, Option.eq_none_iff_forall_not_mem]
  constructor
  · intro hf o ho hid
    obtain ⟨nd, hnd, rfl⟩ := List.mem_map.mp ho
    exact hf _ ((h.find id _).mpr ⟨nd, hnd, Prod.ext hid rfl⟩)
  · intro hf loc hloc
    obtain ⟨nd, hnd, he⟩ := (h.find id loc).mp hloc
    exact hf nd.order (List.mem_map_of_mem hnd) (congrArg Prod.fst he)

/-- Orders come and go through the index together, so ids are unique. -/
theorem ids (h : b.Placed) : (b.book.orders.map (·.orderId)).Nodup := by
  have hk := (h.index.map (·.1)).nodup_iff.mp b.orderIndex.keys_nodup
  rw [orders_book, List.map_map]
  rwa [List.map_map] at hk

theorem deref_eq (h : b.Placed) (hnd : nd ∈ b.live) : b.deref nd.it = nd.order := by
  have hf : b.live.find? (fun x => x.it = nd.it) = some nd := by
    cases hx : b.live.find? (fun x => x.it = nd.it) with
    | none => simpa using List.find?_eq_none.mp hx nd hnd
    | some x =>
      have hit : x.it = nd.it := by simpa using List.find?_some hx
      rw [List.inj_on_of_nodup_map h.its (List.mem_of_find?_eq_some hx) hnd hit]
  rw [deref, ← live, hf]
  rfl

/-- The side of a queue is filled with orders at the price of the queue. -/
theorem price_of_cut (h : b.Placed) (hc : (b.levels s).entries = pre ++ (p, q) :: post)
    (hnd : nd ∈ q) : nd.order.side = s ∧ nd.order.price = p :=
  h.level s (p, q) (by rw [hc]; simp) nd hnd

/-- One node leaves its queue and the index; empty queues may go. -/
theorem remove (h : b.Placed)
    (hlv : ∀ s, ∀ e ∈ (b'.levels s).entries, ∃ e₀ ∈ (b.levels s).entries, e₀.1 = e.1 ∧ e.2 ⊆ e₀.2)
    (hp : b.live.Perm (nd :: b'.live)) (hit : b'.nextIt = b.nextIt)
    (hidx : b'.orderIndex = b.orderIndex.erase nd.order.orderId) : b'.Placed := by
  refine ⟨fun s e he x hx => ?_, fun x hx => ?_, ?_, ?_⟩
  · obtain ⟨e₀, he₀, hkey, hsub⟩ := hlv s e he
    rw [← hkey]; exact h.level s e₀ he₀ x (hsub hx)
  · rw [hit]; exact h.fresh x (hp.mem_iff.mpr (List.mem_cons_of_mem _ hx))
  · exact (List.nodup_cons.mp ((hp.map _).nodup_iff.mp h.its)).2
  · rw [hidx]
    exact SortedMap.perm_erase (v := nd.entry.2) (h.index.trans (hp.map _))

/-- An order is rewritten in place at the front of a queue. -/
theorem setFront (h : b.Placed) (hc : (b.levels s).entries = pre ++ (p, nd :: q) :: post)
    (ho : o.core = nd.order.core) : (b.setQueue s p ({ nd with order := o } :: q)).Placed := by
  have hc' : ((b.setQueue s p ({ nd with order := o } :: q)).levels s).entries =
      pre ++ (p, { nd with order := o } :: q) :: post := by
    rw [setQueue, levels_setLevels, SortedMap.entries_insert_of_cut hc]
  have hopp : (b.setQueue s p ({ nd with order := o } :: q)).levels s.opp = b.levels s.opp :=
    levels_setLevels_opp _
  have hside : o.side = nd.order.side ∧ o.price = nd.order.price := by
    simp only [Order.core, Order.mk.injEq] at ho
    exact ⟨ho.2.2.2.2.2.1, ho.2.1⟩
  -- neither iterators nor index entries see the change
  have hsame : ∀ {α : Type} (f : ListNode → α), f { nd with order := o } = f nd →
      ((b.setQueue s p ({ nd with order := o } :: q)).live.map f).Perm (b.live.map f) := by
    intro α f hf
    refine ((live_perm _ s).map f).trans (.trans (.of_eq ?_) ((b.live_perm s).map f).symm)
    rw [nodes_of_cut hc', nodes_of_cut hc, nodes_opp hopp]
    simp [hf]
  refine ⟨fun t e he x hx => ?_, fun x hx => ?_, (hsame _ rfl).nodup_iff.mpr h.its, ?_⟩
  · rcases s.eq_or_eq_opp t with rfl | rfl
    · rw [hc', List.mem_append, List.mem_cons] at he
      rcases he with he | rfl | he
      · exact h.level _ e (by rw [hc]; simp [he]) x hx
      · rcases List.mem_cons.mp hx with rfl | hx
        · rw [hside.1, hside.2]; exact h.price_of_cut hc (List.mem_cons_self ..)
        · exact h.price_of_cut hc (List.mem_cons_of_mem _ hx)
      · exact h.level _ e (by rw [hc]; simp [he]) x hx
    · exact h.level _ e (hopp ▸ he) x hx
  · obtain ⟨y, hy, hyx⟩ := List.mem_map.mp
      ((hsame (·.it) rfl).mem_iff.mp (List.mem_map_of_mem (f := (·.it)) hx))
    rw [← hyx, setQueue, nextIt_setLevels]
    exact h.fresh y hy
  · rw [setQueue, orderIndex_setLevels]
    exact h.index.trans (hsame _ (ListNode.entry_of_core ho)).symm

end Placed

/-! ### One pass of the inner loop -/

/-- What the rest of a matching call will have produced. -/
def outcome (a : Side) (m : Matching StlOrderBook) : List Trade × Quantity × List Order :=
  let f := fill m.incoming m.incoming.remainingQuantity (m.book.resting a.opp)
  (m.outTrades ++ f.trades, f.left, f.rest)

/-- Book and incoming order in the middle of a matching call that began with `m₀`. -/
structure Run (a : Side) (m₀ m : Matching StlOrderBook) : Prop where
  placed : m.book.Placed
  incoming : m.incoming =
    { m₀.incoming with remainingQuantity := m.incoming.remainingQuantity }
  ownLevels : m.book.levels a = m₀.book.levels a
  outcome : outcome a m = outcome a m₀

theorem Run.refl {m : Matching StlOrderBook} (h : m.book.Placed) : Run a m m :=
  ⟨h, rfl, rfl, rfl⟩

theorem Run.trans {m₀ m₁ m₂ : Matching StlOrderBook} (h : Run a m₀ m₁) (h' : Run a m₁ m₂) :
    Run a m₀ m₂ where
  placed := h'.placed
  incoming := by rw [h'.incoming, h.incoming]
  ownLevels := h'.ownLevels.trans h.ownLevels
  outcome := h'.outcome.trans h.outcome

theorem Run.side {m₀ m : Matching StlOrderBook} (h : Run a m₀ m) :
    m.incoming.side = m₀.incoming.side := by rw [h.incoming]

/-- The front of the queue under `p` is filled. -/
def fillFront (a : Side) (p : Price) (front : ListNode) (queue : List ListNode)
    (m : Matching StlOrderBook) : Matching StlOrderBook :=
  ⟨{ m.book with orderIndex := m.book.orderIndex.erase front.order.orderId }.setQueue a.opp p queue,
    { m.incoming with remainingQuantity :=
      m.incoming.remainingQuantity - front.order.remainingQuantity },
    m.outTrades ++ [m.incoming.trade front.order front.order.remainingQuantity]⟩

/-- The incoming order is used up on the front of the queue under `p`. -/
def reduceFront (a : Side) (p : Price) (front : ListNode) (queue : List ListNode)
    (m : Matching StlOrderBook) : Matching StlOrderBook :=
  ⟨m.book.setQueue a.opp p ({ front with order := { front.order with remainingQuantity :=
      front.order.remainingQuantity - m.incoming.remainingQuantity } } :: queue),
    { m.incoming with remainingQuantity := 0 },
    m.outTrades ++ [m.incoming.trade front.order m.incoming.remainingQuantity]⟩

section Step
variable {m₀ m m' : Matching StlOrderBook}

/-- One pass of the inner loop, by what it does to the maker. -/
theorem matchLevelStep_eq (ha : m.incoming.side = a)
    (hc : (m.book.levels a.opp).entries = pre ++ (p, nd :: q) :: post) : matchLevelStep a p m =
      if m.incoming.remainingQuantity ≠ 0 then
        if nd.order.remainingQuantity ≤ m.incoming.remainingQuantity
        then some (fillFront a p nd q m) else some (reduceFront a p nd q m)
      else none := by
  have hpos : m.incoming.remainingQuantity > 0 ↔ m.incoming.remainingQuantity ≠ 0 := by grind
  simp only [matchLevelStep, queueAt_of_cut hc, hpos, Order.isFilled, decide_eq_true_eq,
    PoolOrderBook.sub_min_eq_zero_iff]
  by_cases h1 : m.incoming.remainingQuantity ≠ 0
  · by_cases h2 : nd.order.remainingQuantity ≤ m.incoming.remainingQuantity
    · simp only [if_pos h1, if_pos h2, PoolOrderBook.min_of_le h2, fillFront, Order.trade, ha]
    · simp only [if_pos h1, if_neg h2, PoolOrderBook.min_of_not_le h2, UInt32.sub_self,
        reduceFront, Order.trade, ha]
  · simp only [if_neg h1]

theorem matchLevelStep_nil (hc : (m.book.levels a.opp).entries = pre ++ (p, []) :: post) :
    matchLevelStep a p m = none := by rw [matchLevelStep, queueAt_of_cut hc]

theorem levels_setQueue_opp (b : StlOrderBook) (s : Side) (p : Price) (q : List ListNode) :
    (b.setQueue s p q).levels s.opp = b.levels s.opp := levels_setLevels_opp _

theorem levels_setQueue_of_opp (b : StlOrderBook) (s : Side) (p : Price) (q : List ListNode) :
    (b.setQueue s.opp p q).levels s = b.levels s := by cases s <;> rfl

theorem entries_setQueue (hc : (b.levels s).entries = pre ++ (p, xs) :: post) (q : List ListNode) :
    ((b.setQueue s p q).levels s).entries = pre ++ (p, q) :: post := by
  rw [setQueue, levels_setLevels, SortedMap.entries_insert_of_cut hc]

theorem resting_of_front (hc : (b.levels s).entries = (p, nd :: q) :: post) :
    b.resting s = nd.order :: (q ++ post.flatMap (·.2)).map (·.order) := by
  rw [resting, nodes, hc]
  simp

theorem resting_of_cons (hc : (b.levels s).entries = (p, q) :: post) :
    b.resting s = (q ++ post.flatMap (·.2)).map (·.order) := by
  rw [resting, nodes, hc]
  simp

theorem fillFront_run (h : m.book.Placed)
    (hc : (m.book.levels a.opp).entries = (p, nd :: q) :: post) (hr : m.incoming.Reaches p)
    (hr0 : m.incoming.remainingQuantity ≠ 0)
    (hle : nd.order.remainingQuantity ≤ m.incoming.remainingQuantity) :
    Run a m (fillFront a p nd q m) ∧
      ((fillFront a p nd q m).book.levels a.opp).entries = (p, q) :: post := by
  have hlv : ∀ t, ({ m.book with orderIndex := m.book.orderIndex.erase nd.order.orderId } :
      StlOrderBook).levels t = m.book.levels t := fun t => by cases t <;> rfl
  have hc' : ((fillFront a p nd q m).book.levels a.opp).entries = [] ++ (p, q) :: post :=
    entries_setQueue (cut_head (by rw [hlv]; exact hc)) q
  have hown : (fillFront a p nd q m).book.levels a = m.book.levels a := by
    rw [fillFront, levels_setQueue_of_opp, hlv]
  have hpx := (h.price_of_cut (cut_head hc) (List.mem_cons_self ..)).2
  have hnopp : (fillFront a p nd q m).book.nodes a.opp.opp = m.book.nodes a.opp.opp := by
    rw [Side.opp_opp, nodes, hown, nodes]
  refine ⟨⟨?_, rfl, hown, ?_⟩, hc'⟩
  · refine h.remove (fun t e he => ?_) ?_ (nextIt_setLevels _) (orderIndex_setLevels _)
    · rcases a.eq_or_eq_opp t with rfl | rfl
      · exact ⟨e, hown ▸ he, rfl, List.Subset.refl _⟩
      · rw [hc', List.nil_append, List.mem_cons] at he
        rcases he with rfl | he
        · exact ⟨(p, nd :: q), by rw [hc]; simp, rfl, List.subset_cons_self ..⟩
        · exact ⟨e, by rw [hc]; exact List.mem_cons_of_mem _ he, rfl, List.Subset.refl _⟩
    · refine (m.book.live_perm a.opp).trans (.trans ?_ ((live_perm _ a.opp).symm.cons nd))
      rw [hnopp, nodes_of_cut (cut_head hc), nodes_of_cut hc']
      exact .refl _
  · rw [outcome, outcome, resting_of_cons hc', resting_of_front hc, fill,
      if_neg (by rw [hpx]; tauto), if_pos hle]
    simp only [fillFront, fill_remaining, List.append_assoc, List.singleton_append]

theorem reduceFront_run (h : m.book.Placed)
    (hc : (m.book.levels a.opp).entries = (p, nd :: q) :: post) (hr : m.incoming.Reaches p)
    (hr0 : m.incoming.remainingQuantity ≠ 0)
    (hle : ¬ nd.order.remainingQuantity ≤ m.incoming.remainingQuantity) :
    Run a m (reduceFront a p nd q m) ∧ ∃ nd',
      ((reduceFront a p nd q m).book.levels a.opp).entries = (p, nd' :: q) :: post := by
  set o : Order := { nd.order with remainingQuantity :=
    nd.order.remainingQuantity - m.incoming.remainingQuantity } with ho
  have hc' : ((reduceFront a p nd q m).book.levels a.opp).entries =
      [] ++ (p, { nd with order := o } :: q) :: post :=
    entries_setQueue (b := m.book) (cut_head hc) _
  have hown : (reduceFront a p nd q m).book.levels a = m.book.levels a :=
    levels_setQueue_of_opp ..
  have hpx := (h.price_of_cut (cut_head hc) (List.mem_cons_self ..)).2
  refine ⟨⟨?_, rfl, hown, ?_⟩, _, hc'⟩
  · exact h.setFront (cut_head hc) rfl
  · have h0 : outcome a (reduceFront a p nd q m) = (m.outTrades ++ [m.incoming.trade
        nd.order m.incoming.remainingQuantity], 0,
        (reduceFront a p nd q m).book.resting a.opp) := by
      rw [outcome]
      simp only [reduceFront, fill_zero, List.append_nil]
    rw [h0, resting_of_front hc', outcome, resting_of_front hc, fill,
      if_neg (by rw [hpx]; tauto), if_neg hle]

/-! ### The inner loop -/

/-- The inner loop in the middle of the queue under `p`, with the queues `post` behind it. -/
structure InLevel (a : Side) (p : Price) (post : List (Price × List ListNode))
    (m₀ m : Matching StlOrderBook) : Prop where
  run : Run a m₀ m
  reaches : m.incoming.Reaches p
  level : ∃ q, (m.book.levels a.opp).entries = (p, q) :: post

/-- Passes that the inner loop can still make. -/
def passesLeft (a : Side) (p : Price) (m : Matching StlOrderBook) : ℕ :=
  (m.book.queueAt a.opp p).length + if m.incoming.remainingQuantity = 0 then 0 else 1

theorem passesLeft_of_cut (hc : (m.book.levels a.opp).entries = (p, q) :: post) :
    passesLeft a p m = q.length + if m.incoming.remainingQuantity = 0 then 0 else 1 := by
  rw [passesLeft, queueAt_of_cut (cut_head hc)]

/-- One pass keeps the inner invariant and leaves fewer passes to make. -/
theorem InLevel.step (ha : m₀.incoming.side = a) (m m' : Matching StlOrderBook)
    (h : InLevel a p post m₀ m) (hstep : matchLevelStep a p m = some m') :
    InLevel a p post m₀ m' ∧ passesLeft a p m' < passesLeft a p m := by
  obtain ⟨q, hc⟩ := h.level
  cases q with
  | nil => rw [matchLevelStep_nil (cut_head hc)] at hstep; cases hstep
  | cons nd q =>
    rw [matchLevelStep_eq (h.run.side.trans ha) (cut_head hc)] at hstep
    split_ifs at hstep with hr0 hle
    · obtain ⟨hrun, hc'⟩ := fillFront_run h.run.placed hc h.reaches hr0 hle
      cases hstep
      refine ⟨⟨h.run.trans hrun, h.reaches, q, hc'⟩, ?_⟩
      rw [passesLeft_of_cut hc, passesLeft_of_cut hc', if_neg hr0, List.length_cons]
      split_ifs <;> omega
    · obtain ⟨hrun, nd', hc'⟩ := reduceFront_run h.run.placed hc h.reaches hr0 hle
      cases hstep
      refine ⟨⟨h.run.trans hrun, h.reaches, _, hc'⟩, ?_⟩
      have hfilled : (reduceFront a p nd q m).incoming.remainingQuantity = 0 := rfl
      rw [passesLeft_of_cut hc, passesLeft_of_cut hc', if_neg hr0, if_pos hfilled,
        List.length_cons, List.length_cons]
      omega

/-- The inner loop stops, with the queue used up or the incoming order filled. -/
theorem matchLevel_spec (h : m.book.Placed) (ha : m.incoming.side = a)
    (hc : (m.book.levels a.opp).entries = (p, q) :: post) (hr : m.incoming.Reaches p) :
    Run a m (matchLevel a p m) ∧ ∃ q',
      ((matchLevel a p m).book.levels a.opp).entries = (p, q') :: post ∧
      (q' = [] ∨ (matchLevel a p m).incoming.remainingQuantity = 0) := by
  have h₀ : InLevel a p post m m := ⟨.refl h, hr, q, hc⟩
  have hfuel : passesLeft a p m ≤ (m.book.queueAt a.opp p).length + 1 := by
    rw [passesLeft]; split_ifs <;> omega
  obtain ⟨hin, hdone⟩ := loop_rule (passesLeft a p) (InLevel.step ha) h₀ hfuel
  obtain ⟨q', hc'⟩ := hin.level
  refine ⟨hin.run, q', hc', ?_⟩
  cases q' with
  | nil => exact .inl rfl
  | cons nd q' =>
    rw [matchLevelStep_eq (hin.run.side.trans ha) (cut_head hc')] at hdone
    split_ifs at hdone with hr0
    exact .inr (not_not.mp hr0)

/-! ### The outer loop -/

/-- The outer loop between two queues. -/
structure Between (a : Side) (m₀ m : Matching StlOrderBook) : Prop where
  run : Run a m₀ m
  noEmptyLevel : m.book.NoEmptyLevel

/-- The outer test, by the queue that is matched next. -/
theorem nextLevel_eq_some_iff (ha : m.incoming.side = a) : nextLevel a m = some p ↔
    m.incoming.remainingQuantity ≠ 0 ∧ m.incoming.Reaches p ∧
      ∃ q post, (m.book.levels a.opp).entries = (p, q) :: post := by
  have hpos : m.incoming.remainingQuantity > 0 ↔ m.incoming.remainingQuantity ≠ 0 := by grind
  rw [nextLevel, SortedMap.begin?]
  cases hc : (m.book.levels a.opp).entries with
  | nil => simp
  | cons e post =>
    obtain ⟨p', q'⟩ := e
    simp only [List.head?_cons, hpos, Order.Reaches, ha]
    constructor
    · intro h
      split_ifs at h with h1 h2
      cases h
      exact ⟨h1, h2, q', post, rfl⟩
    · rintro ⟨h1, h2, q, post', h3⟩
      cases h3
      rw [if_pos h1, if_neg h2]

/-- When the outer loop stops there is nothing left to fill. -/
theorem outcome_of_done (h : m.book.Placed) (hne : m.book.NoEmptyLevel) (ha : m.incoming.side = a)
    (hdone : matchStep a m = none) :
    outcome a m = (m.outTrades, m.incoming.remainingQuantity, m.book.resting a.opp) := by
  have hnone : nextLevel a m = none := by
    cases h : nextLevel a m with
    | none => rfl
    | some p => rw [matchStep, h] at hdone; dsimp only at hdone; split_ifs at hdone
  suffices h : fill m.incoming m.incoming.remainingQuantity (m.book.resting a.opp) =
      ⟨[], m.incoming.remainingQuantity, m.book.resting a.opp⟩ by
    rw [outcome, h, List.append_nil]
  cases hc : (m.book.levels a.opp).entries with
  | nil => rw [resting, nodes, hc]; rfl
  | cons e post =>
    obtain ⟨p, q⟩ := e
    obtain ⟨nd, q, rfl⟩ := List.exists_cons_of_ne_nil (hne a.opp (p, q) (by rw [hc]; simp))
    rw [resting_of_front hc]
    refine fill_stop _ ?_
    rw [(h.price_of_cut (cut_head hc) (List.mem_cons_self ..)).2]
    by_contra hcon
    rw [not_or, not_not] at hcon
    have := (nextLevel_eq_some_iff ha).mpr ⟨hcon.1, hcon.2, _, post, hc⟩
    rw [hnone] at this; cases this

/-- Erasing an empty queue. -/
theorem Placed.eraseLevel (h : b.Placed) (hc : (b.levels s).entries = pre ++ (p, []) :: post) :
    (b.eraseLevel s p).Placed ∧ ∀ t, (b.eraseLevel s p).nodes t = b.nodes t := by
  have hent : ((b.eraseLevel s p).levels s).entries = pre ++ post := by
    rw [StlOrderBook.eraseLevel, levels_setLevels, SortedMap.entries_erase_of_cut hc]
  have ho : (b.eraseLevel s p).levels s.opp = b.levels s.opp := levels_setLevels_opp _
  have hn : ∀ t, (b.eraseLevel s p).nodes t = b.nodes t := fun t => by
    rcases s.eq_or_eq_opp t with rfl | rfl
    · rw [nodes, hent, nodes_of_cut hc, List.flatMap_append, List.nil_append]
    · rw [nodes, ho, nodes]
  have hl : (b.eraseLevel s p).live = b.live := by rw [live, hn, hn, live]
  have hit : (b.eraseLevel s p).nextIt = b.nextIt := nextIt_setLevels _
  have hidx : (b.eraseLevel s p).orderIndex = b.orderIndex := orderIndex_setLevels _
  refine ⟨⟨fun t e he => ?_, by rw [hl, hit]; exact h.fresh, by rw [hl]; exact h.its,
    by rw [hl, hidx]; exact h.index⟩, hn⟩
  rcases s.eq_or_eq_opp t with rfl | rfl
  · rw [hent, List.mem_append] at he
    exact h.level _ e (by rw [hc]; simp only [List.mem_append, List.mem_cons]; tauto)
  · exact h.level _ e (ho ▸ he)

/-- One pass of the outer loop keeps its invariant; it erases a queue or fills the order. -/
theorem Between.step (ha : m₀.incoming.side = a) (m m' : Matching StlOrderBook)
    (h : Between a m₀ m) (hstep : matchStep a m = some m') :
    Between a m₀ m' ∧ (m'.book.levels a.opp).size +
      (if m'.incoming.remainingQuantity = 0 then 0 else 1) <
        (m.book.levels a.opp).size + if m.incoming.remainingQuantity = 0 then 0 else 1 := by
  have ham := h.run.side.trans ha
  rw [matchStep] at hstep
  cases hnext : nextLevel a m with
  | none => rw [hnext] at hstep; cases hstep
  | some p =>
    obtain ⟨hr0, hr, q, post, hc⟩ := (nextLevel_eq_some_iff ham).mp hnext
    obtain ⟨hrun, q', hc', hexit⟩ := matchLevel_spec h.run.placed ham hc hr
    have hrest : ∀ e ∈ post, e.2 ≠ [] := fun e he =>
      h.noEmptyLevel a.opp e (by rw [hc]; exact List.mem_cons_of_mem _ he)
    have hown : ∀ e ∈ ((matchLevel a p m).book.levels a).entries, e.2 ≠ [] := by
      rw [hrun.ownLevels]; exact h.noEmptyLevel a
    have hsize : (m.book.levels a.opp).size = post.length + 1 := by
      rw [SortedMap.size, hc, List.length_cons]
    rw [hnext] at hstep
    dsimp only at hstep
    rw [queueAt_of_cut (cut_head hc')] at hstep
    cases q' with
    | nil =>
      -- the queue is used up
      cases hstep
      obtain ⟨he, hn⟩ := hrun.placed.eraseLevel (cut_head hc')
      have hentries : (((matchLevel a p m).book.eraseLevel a.opp p).levels a.opp).entries =
          post := by
        rw [eraseLevel, levels_setLevels, SortedMap.entries_erase_of_cut (cut_head hc'),
          List.nil_append]
      have hownl : ((matchLevel a p m).book.eraseLevel a.opp p).levels a =
          (matchLevel a p m).book.levels a := by cases a <;> rfl
      refine ⟨⟨h.run.trans ⟨he, hrun.incoming, hownl.trans hrun.ownLevels, ?_⟩, ?_⟩, ?_⟩
      · rw [← hrun.outcome, outcome, outcome, resting, hn, resting]
      · intro t
        rcases a.eq_or_eq_opp t with rfl | rfl
        · rw [hownl]; exact hown
        · rw [hentries]; exact hrest
      · rw [SortedMap.size, hentries, hsize, if_neg hr0]
        split_ifs <;> omega
    | cons nd q' =>
      -- the incoming order is used up
      cases hstep
      have hr0' := hexit.resolve_left (List.cons_ne_nil _ _)
      refine ⟨⟨h.run.trans hrun, fun t => ?_⟩, ?_⟩
      · rcases a.eq_or_eq_opp t with rfl | rfl
        · exact hown
        · rw [hc']; exact List.forall_mem_cons.mpr ⟨List.cons_ne_nil _ _, hrest⟩
      · rw [hsize, SortedMap.size, hc', List.length_cons, if_pos hr0', if_neg hr0]
        omega

/-- The match loops do the greedy fill. -/
theorem matchSide_spec (h : m.book.Inv) (ha : m.incoming.side = a) :
    Between a m (matchSide a m) ∧
      ((matchSide a m).outTrades, (matchSide a m).incoming.remainingQuantity,
        (matchSide a m).book.resting a.opp) = outcome a m := by
  have h₀ : Between a m m := ⟨.refl h.placed, h.noEmptyLevel⟩
  have hfuel : (m.book.levels a.opp).size +
      (if m.incoming.remainingQuantity = 0 then 0 else 1) ≤ (m.book.levels a.opp).size + 1 := by
    split_ifs <;> omega
  let μ := fun m : Matching StlOrderBook => (m.book.levels a.opp).size +
    if m.incoming.remainingQuantity = 0 then 0 else 1
  obtain ⟨hb, hdone⟩ := loop_rule μ (Between.step ha) h₀ hfuel
  refine ⟨hb, ?_⟩
  rw [← hb.run.outcome]
  exact (outcome_of_done hb.run.placed hb.noEmptyLevel (hb.run.side.trans ha) hdone).symm

end Step

/-! ### Queries -/

namespace Inv

/-- Index and iterator lead to the order that a search through the book finds. -/
theorem getOrder_eq (h : b.Inv) (id : OrderId) : b.getOrder id = b.book.find? id := by
  rw [getOrder]
  cases hf : b.orderIndex.find? id with
  | none => rw [Option.map_none, h.placed.index_none_iff.mp hf]
  | some loc =>
    obtain ⟨nd, hnd, he⟩ := (h.placed.find id loc).mp hf
    cases he
    rw [Option.map_some, h.placed.deref_eq hnd, eq_comm, Book.find?_eq_some_iff h.placed.ids,
      orders_book]
    exact ⟨List.mem_map_of_mem hnd, rfl⟩

theorem hasOrder_eq (h : b.Inv) (id : OrderId) : b.hasOrder id = (b.book.find? id).isSome := by
  rw [← h.getOrder_eq, getOrder, Option.isSome_map, hasOrder]

theorem totalOrders_eq (h : b.Inv) : b.totalOrders = b.book.orders.length := by
  rw [totalOrders, SortedMap.size, h.placed.index.length_eq, orders_book, List.length_map,
    List.length_map]

/-- The first queue starts with the first order of the side. -/
theorem best_eq (h : b.Inv) (s : Side) :
    (b.levels s).begin?.map (·.1) = b.book.bestPrice s := by
  rw [SortedMap.begin?, Book.bestPrice, book]
  cases hc : (b.levels s).entries with
  | nil => rw [resting, nodes, hc]; rfl
  | cons e post =>
    obtain ⟨p, q⟩ := e
    obtain ⟨nd, q, rfl⟩ := List.exists_cons_of_ne_nil
      (h.noEmptyLevel s (p, q) (by rw [hc]; exact List.mem_cons_self ..))
    have hpx := (h.placed.price_of_cut (cut_head hc) (List.mem_cons_self ..)).2
    rw [resting_of_front hc, List.head?_cons, List.head?_cons, Option.map_some, Option.map_some,
      hpx]

theorem bestBid_eq (h : b.Inv) : b.bestBid = b.book.bestPrice .buy := h.best_eq .buy

theorem bestAsk_eq (h : b.Inv) : b.bestAsk = b.book.bestPrice .sell := h.best_eq .sell

/-- The keys of a side are the prices at which orders rest, each once. -/
theorem levels_size (h : b.Inv) (s : Side) : (b.levels s).size = (b.book.prices s).length := by
  suffices hp : ((b.levels s).entries.map (·.1)).Perm (b.book.prices s) by
    rw [SortedMap.size, ← hp.length_eq, List.length_map]
  refine (List.perm_ext_iff_of_nodup (b.levels s).keys_nodup (List.nodup_dedup _)).mpr fun p => ?_
  show _ ↔ p ∈ ((b.resting s).map (·.price)).dedup
  rw [List.mem_dedup, resting, List.map_map, List.mem_map, List.mem_map]
  constructor
  · rintro ⟨⟨p, q⟩, he, rfl⟩
    obtain ⟨nd, q, rfl⟩ := List.exists_cons_of_ne_nil (h.noEmptyLevel s (p, q) he)
    exact ⟨nd, List.mem_flatMap.mpr ⟨_, he, List.mem_cons_self ..⟩,
      (h.placed.level s _ he nd (List.mem_cons_self ..)).2⟩
  · rintro ⟨nd, hnd, rfl⟩
    obtain ⟨e, he, hnd⟩ := List.mem_flatMap.mp hnd
    exact ⟨e, he, (h.placed.level s e he nd hnd).2.symm⟩

end Inv

/-- A run of queues whose keys are not `p` holds no order at `p`. -/
theorem Placed.filter_price_eq_nil (h : b.Placed) {es : List (Price × List ListNode)}
    (hsub : ∀ e ∈ es, e ∈ (b.levels s).entries) (hne : ∀ e ∈ es, e.1 ≠ p) :
    ((es.flatMap (·.2)).map (·.order)).filter (fun o => o.price = p) = [] := by
  rw [List.filter_eq_nil_iff]
  intro o ho
  obtain ⟨nd, hnd, rfl⟩ := List.mem_map.mp ho
  obtain ⟨e, he, hie⟩ := List.mem_flatMap.mp hnd
  rw [decide_eq_true_eq, (h.level s e (hsub e he) nd hie).2]
  exact hne e he

/-- A queue is what the book lists at its price. -/
theorem Placed.queueAt_eq (h : b.Placed) (s : Side) (p : Price) :
    (b.queueAt s p).map (·.order) = b.book.queueAt s p := by
  rw [queueAt, Book.queueAt, book, resting, nodes]
  rcases (b.levels s).split p with ⟨q, pre, post, hc⟩ | ⟨pre, post, hc, hpre, hpost⟩
  · have hself : (q.map (·.order)).filter (fun o => o.price = p) = q.map (·.order) := by
      rw [List.filter_eq_self]
      intro o ho
      obtain ⟨nd, hnd, rfl⟩ := List.mem_map.mp ho
      exact decide_eq_true (h.price_of_cut hc hnd).2
    rw [SortedMap.find?_of_cut hc, hc, List.flatMap_append, List.flatMap_cons, List.map_append,
      List.map_append, List.filter_append, List.filter_append, hself,
      h.filter_price_eq_nil (s := s) (fun e he => by rw [hc]; simp [he])
        (SortedMap.ne_of_mem_pre (SortedMap.lt_of_mem_pre hc)),
      h.filter_price_eq_nil (s := s) (fun e he => by rw [hc]; simp [he])
        (SortedMap.ne_of_mem_post (SortedMap.lt_of_mem_post hc)), List.nil_append, List.append_nil]
    rfl
  · rw [SortedMap.find?_of_gap hc hpre hpost]
    refine (h.filter_price_eq_nil (s := s) (fun e he => he) fun e he => ?_).symm
    rw [hc, List.mem_append] at he
    exact he.elim (SortedMap.ne_of_mem_pre hpre e) (SortedMap.ne_of_mem_post hpost e)

theorem sumQueue_eq (q : List ListNode) : sumQueue q = volume (q.map (·.order)) := by
  have key : ∀ (q : List ListNode) (t : Quantity),
      q.foldl (fun total ord => total + ord.order.remainingQuantity) t =
        t + volume (q.map (·.order)) := by
    intro q
    induction q with
    | nil => intro t; simp
    | cons nd q ih =>
      intro t
      rw [List.foldl_cons, ih, List.map_cons, volume_cons, UInt32.add_assoc]
  rw [sumQueue, key, UInt32.zero_add]

/-- The volume at a price is the sum over its queue in the book. -/
theorem Inv.volumeAtPrice_eq (h : b.Inv) (s : Side) (p : Price) :
    b.volumeAtPrice s p = volume (b.book.queueAt s p) := by
  have hv : b.volumeAtPrice s p = (((b.levels s).find? p).map sumQueue).getD 0 := by
    cases s <;> rfl
  rw [hv, ← h.placed.queueAt_eq, ← sumQueue_eq, queueAt]
  cases (b.levels s).find? p <;> rfl

/-! ### Empty books -/

theorem inv_of_empty (hidx : b.orderIndex = .empty) (hlv : ∀ t, (b.levels t).entries = []) :
    b.Inv ∧ b.book = fun _ => [] := by
  have hn : ∀ t, b.nodes t = [] := fun t => by rw [nodes, hlv]; rfl
  have hlive : b.live = [] := by rw [live, hn, hn]; rfl
  refine ⟨⟨⟨fun t e he => ?_, ?_, ?_, ?_⟩, fun t e he => ?_⟩, ?_⟩
  · rw [hlv] at he; cases he
  · rw [hlive]; exact fun nd hnd => nomatch hnd
  · rw [hlive]; exact .nil
  · rw [hidx, hlive]; exact .nil
  · rw [hlv] at he; cases he
  · funext t; rw [book, resting, hn]; rfl

theorem inv_empty : ({} : StlOrderBook).Inv ∧ ({} : StlOrderBook).book = fun _ => [] :=
  inv_of_empty rfl fun t => by cases t <;> rfl

theorem inv_clear : b.clear.Inv ∧ b.clear.book = b.book.clear :=
  inv_of_empty rfl fun t => by cases t <;> rfl

/-! ### Resting -/

/-- Pushing an order with a new id to the back of its queue is one step of the book. -/
theorem restAt_spec (h : b.Inv) (hs : o.side = s)
    (hnew : b.orderIndex.find? o.orderId = none) :
    (b.restAt s o).Inv ∧ (b.restAt s o).book = b.book.rest o := by
  -- whether or not there is a queue, it gets the order as its last member
  obtain ⟨q, pre, mid, post, hat, hc, hins, hmid, hq, hlt, hgt⟩ :
      ∃ q, ∃ pre mid post, b.queueAt s o.price = q ∧
        (b.levels s).entries = pre ++ mid ++ post ∧
        (∀ q', ((b.levels s).insert o.price q').entries = pre ++ (o.price, q') :: post) ∧
        mid.flatMap (·.2) = q ∧ (∀ nd ∈ q, nd.order.side = s ∧ nd.order.price = o.price) ∧
        (∀ e ∈ pre, better s e.1 o.price) ∧ ∀ e ∈ post, better s o.price e.1 := by
    rcases (b.levels s).split o.price with ⟨q, pre, post, hc⟩ | ⟨pre, post, hc, hpre, hpost⟩
    · exact ⟨q, pre, [(o.price, q)], post, queueAt_of_cut hc, by simp [hc],
        SortedMap.entries_insert_of_cut hc, by simp, fun nd hnd => h.placed.price_of_cut hc hnd,
        SortedMap.lt_of_mem_pre hc, SortedMap.lt_of_mem_post hc⟩
    · refine ⟨[], pre, [], post, ?_, by simp [hc], SortedMap.entries_insert_of_gap hc hpre hpost,
        rfl, by simp, hpre, hpost⟩
      rw [queueAt, SortedMap.find?_of_gap hc hpre hpost]
      rfl
  set b₁ := b.restAt s o with hb₁
  set nd : ListNode := ⟨b.nextIt, o⟩ with hnd
  have hlv : b₁.levels s = (b.levels s).insert o.price (q ++ [nd]) := by
    rw [← hat]; cases s <;> rfl
  have ho : b₁.levels s.opp = b.levels s.opp := by cases s <;> rfl
  have hit : b₁.nextIt = b.nextIt + 1 := by
    rw [hb₁, restAt]; exact nextIt_setLevels _
  have hent : (b₁.levels s).entries = pre ++ (o.price, q ++ [nd]) :: post := by rw [hlv, hins]
  have hn : b.nodes s = pre.flatMap (·.2) ++ (q ++ post.flatMap (·.2)) := by
    rw [nodes, hc, List.flatMap_append, List.flatMap_append, hmid, List.append_assoc]
  have hn₁ : b₁.nodes s = pre.flatMap (·.2) ++ ((q ++ [nd]) ++ post.flatMap (·.2)) :=
    nodes_of_cut hent
  have hperm : b₁.live.Perm (nd :: b.live) := by
    refine (b₁.live_perm s).trans (.trans ?_ ((b.live_perm s).symm.cons nd))
    rw [nodes_opp ho, hn₁, hn]
    simp only [List.append_assoc, List.cons_append, List.nil_append]
    exact (List.perm_middle.append_left _).trans List.perm_middle
  have hidx : b₁.orderIndex = b.orderIndex.insert nd.order.orderId nd.entry.2 := by
    rw [hnd, ListNode.entry, hs]; cases s <;> rfl
  have hin : ∀ e, e ∈ pre ∨ e ∈ post → e ∈ (b.levels s).entries := fun e he => by
    rw [hc]; simp only [List.mem_append]; tauto
  refine ⟨⟨⟨fun t e he x hx => ?_, fun x hx => ?_, ?_, ?_⟩, fun t e he => ?_⟩,
    Book.ext_sides s ?_ ?_⟩
  · rcases s.eq_or_eq_opp t with rfl | rfl
    · rw [hent, List.mem_append, List.mem_cons] at he
      rcases he with he | rfl | he
      · exact h.placed.level _ e (hin e (.inl he)) x hx
      · rcases List.mem_append.mp hx with hx | hx
        · exact hq x hx
        · rw [List.mem_singleton.mp hx]; exact ⟨hs, rfl⟩
      · exact h.placed.level _ e (hin e (.inr he)) x hx
    · exact h.placed.level _ e (ho ▸ he) x hx
  · rw [hit]
    rcases List.mem_cons.mp (hperm.mem_iff.mp hx) with rfl | hx
    · exact Nat.lt_succ_self _
    · exact Nat.lt_succ_of_lt (h.placed.fresh x hx)
  · refine (hperm.map _).nodup_iff.mpr (List.nodup_cons.mpr ⟨fun hm => ?_, h.placed.its⟩)
    obtain ⟨x, hx, hxi⟩ := List.mem_map.mp hm
    have := h.placed.fresh x hx
    rw [hxi] at this
    exact lt_irrefl _ this
  · rw [hidx]
    exact (SortedMap.perm_insert h.placed.index hnew _).trans (hperm.map ListNode.entry).symm
  · rcases s.eq_or_eq_opp t with rfl | rfl
    · rw [hent, List.mem_append, List.mem_cons] at he
      rcases he with he | rfl | he
      · exact h.noEmptyLevel _ e (hin e (.inl he))
      · simp
      · exact h.noEmptyLevel _ e (hin e (.inr he))
    · exact h.noEmptyLevel _ e (ho ▸ he)
  · have hbook : b.book s = ((pre.flatMap (·.2)) ++ q).map (·.order) ++
        (post.flatMap (·.2)).map (·.order) := by
      rw [book, resting, hn]; simp
    subst hs
    rw [Book.rest, Book.setSide_self, hbook, place_append, place_of_better]
    · rw [book, resting, hn₁]; simp [hnd]
    · intro y hy
      obtain ⟨x, hx, rfl⟩ := List.mem_map.mp hy
      obtain ⟨e, he, hxe⟩ := List.mem_flatMap.mp hx
      rw [(h.placed.level _ e (hin e (.inr he)) x hxe).2]
      exact hgt e he
    · intro y hy
      obtain ⟨x, hx, rfl⟩ := List.mem_map.mp hy
      rcases List.mem_append.mp hx with hx | hx
      · obtain ⟨e, he, hxe⟩ := List.mem_flatMap.mp hx
        rw [(h.placed.level _ e (hin e (.inl he)) x hxe).2]
        exact better_asymm (hlt e he)
      · rw [(hq x hx).2]; exact better_irrefl _ _
  · subst hs
    rw [Book.rest, Book.setSide_opp, book, resting, nodes_opp ho]
    rfl

/-! ### Submitting -/

/-- The matching call of a submission, before its loops start. -/
def entry (b : StlOrderBook) (o : Order) (out : List Trade) : Matching StlOrderBook :=
  ⟨b, { o with remainingQuantity := o.effective }, out⟩

/-- The matching call of a submission, after its loops. -/
def matched (b : StlOrderBook) (o : Order) (out : List Trade) : Matching StlOrderBook :=
  matchSide o.side (b.entry o out)

theorem match_restAt (b : StlOrderBook) (o : Order) : (match o.side with
    | .buy => b.restAt .buy o
    | .sell => b.restAt .sell o) = b.restAt o.side o := by
  cases o.side <;> rfl

/-- A submission passes three checks, matches, and rests what is left of a limit order. -/
theorem submitOrder_eq (h : b.Inv) (o : Order) (out : List Trade) : b.submitOrder o out =
    if b.book.Accepts o then
      if (b.matched o out).incoming.remainingQuantity ≠ 0 ∧
        (b.matched o out).incoming.type = .limit
      then (true, (b.matched o out).outTrades,
        (b.matched o out).book.restAt (b.matched o out).incoming.side (b.matched o out).incoming)
      else (true, (b.matched o out).outTrades, (b.matched o out).book)
    else (false, out, b) := by
  have hdup : (b.orderIndex.find? o.orderId).isSome ↔ ¬ b.book.find? o.orderId = none := by
    rw [← h.placed.index_none_iff, Option.isSome_iff_ne_none]
  have hpos : ∀ q : Quantity, q > 0 ↔ q ≠ 0 := fun q => by grind
  rw [submitOrder, o.ite_effective]
  simp only [hdup, hpos]
  by_cases h1 : o.initialQuantity = 0
  · rw [if_pos h1, if_neg fun ha => ha.1 h1]
  by_cases h2 : o.type = .limit ∧ o.price = 0
  · rw [if_neg h1, if_pos h2, if_neg fun ha => ha.2.1 h2]
  by_cases h3 : b.book.find? o.orderId = none
  · have ha : b.book.Accepts o := ⟨h1, h2, h3⟩
    rw [if_neg h1, if_neg h2, if_neg (not_not.mpr h3), if_pos ha, matched, entry, ← match_restAt]
    cases o.side <;> rfl
  · rw [if_neg h1, if_neg h2, if_pos h3, if_neg fun ha => h3 ha.2.2]

theorem Between.inv {a : Side} {m₀ m : Matching StlOrderBook} (h : Between a m₀ m) :
    m.book.Inv := ⟨h.run.placed, h.noEmptyLevel⟩

/-- Matching fills the submission greedily and touches nothing else. -/
theorem matched_spec (h : b.Inv) (o : Order) (out : List Trade) :
    Between o.side (b.entry o out) (b.matched o out) ∧
    (b.matched o out).outTrades = out ++ (b.book.fillOf o).trades ∧
    (b.matched o out).incoming = { o with remainingQuantity := (b.book.fillOf o).left } ∧
    (b.matched o out).book.book = b.book.setSide o.side.opp (b.book.fillOf o).rest := by
  obtain ⟨hb, hout⟩ := matchSide_spec (m := b.entry o out) (a := o.side) h rfl
  have hfill : outcome o.side (b.entry o out) = (out ++ (b.book.fillOf o).trades,
      (b.book.fillOf o).left, (b.book.fillOf o).rest) := by
    rw [outcome, entry, fill_remaining]; rfl
  rw [hfill, Prod.mk.injEq, Prod.mk.injEq] at hout
  refine ⟨hb, hout.1, ?_, Book.ext_sides o.side ?_ ?_⟩
  · rw [← hout.2.1]; exact hb.run.incoming
  · rw [Book.setSide_of_opp]
    show (b.matched o out).book.resting o.side = b.resting o.side
    rw [resting, nodes, matched, hb.run.ownLevels]
    rfl
  · rw [Book.setSide_self]; exact hout.2.2

/-- A submission is one step of the book. -/
theorem submitOrder_spec (h : b.Inv) (o : Order) (out : List Trade) :
    (b.submitOrder o out).2.2.Inv ∧
    ((b.submitOrder o out).1, (b.submitOrder o out).2.1, (b.submitOrder o out).2.2.book) =
      ((b.book.submit o).1, out ++ (b.book.submit o).2.1, (b.book.submit o).2.2) := by
  rw [submitOrder_eq h, Book.submit] at *
  by_cases ha : b.book.Accepts o
  · simp only [if_pos ha]
    obtain ⟨hb, htr, hinc, hbook⟩ := matched_spec h o out
    rw [hinc, Book.accept, htr]
    dsimp only
    split_ifs with hrest
    · have hnew := hb.inv.placed.index_none_iff.mpr (hbook ▸ Book.find?_fill_none ha.2.2)
      obtain ⟨r1, r2⟩ := restAt_spec
        (o := { o with remainingQuantity := (b.book.fillOf o).left }) hb.inv rfl hnew
      exact ⟨r1, by rw [r2, hbook]⟩
    · exact ⟨hb.inv, by rw [hbook]⟩
  · simp only [if_neg ha, List.append_nil]
    exact ⟨h, trivial⟩

/-! ### Cancelling -/

theorem unlink_of_cut {it : ℕ} (hc : (b.levels s).entries = pre ++ (p, q) :: post) :
    b.unlink s p it = if (q.eraseP fun nd => nd.it = it).isEmpty
      then (b.setQueue s p (q.eraseP fun nd => nd.it = it)).eraseLevel s p
      else b.setQueue s p (q.eraseP fun nd => nd.it = it) := by
  rw [unlink, SortedMap.find?_of_cut hc]

/-- Unlinking a node takes that node and nothing else off the queues. -/
theorem unlink_spec (h : b.Inv) (hnd : nd ∈ b.nodes s) :
    (∀ t, ∀ e ∈ ((b.unlink s nd.order.price nd.it).levels t).entries, e.2 ≠ [] ∧
      ∃ e₀ ∈ (b.levels t).entries, e₀.1 = e.1 ∧ e.2 ⊆ e₀.2) ∧
    (∃ ys zs, b.nodes s = ys ++ nd :: zs ∧
      (b.unlink s nd.order.price nd.it).nodes s = ys ++ zs) ∧
    (b.unlink s nd.order.price nd.it).nodes s.opp = b.nodes s.opp := by
  obtain ⟨⟨p, q⟩, hpq, hq⟩ := List.mem_flatMap.mp hnd
  obtain ⟨pre, post, hc⟩ := List.mem_iff_append.mp hpq
  obtain ⟨xs, ys, rfl⟩ := List.mem_iff_append.mp hq
  rw [(h.placed.price_of_cut hc hq).2]
  have hits := h.placed.its
  rw [((b.live_perm s).map _).nodup_iff, nodes_of_cut hc] at hits
  have herase : (xs ++ nd :: ys).eraseP (fun x => x.it = nd.it) = xs ++ ys := by
    rw [List.eraseP_append_right, List.eraseP_cons_of_pos (by simp)]
    intro x hx
    simp only [List.map_append, List.map_cons, List.append_assoc, List.nodup_append] at hits
    have := hits.2.1.2.2 x.it (List.mem_map_of_mem hx) nd.it (by simp)
    simpa using this
  have hn : b.nodes s = (pre.flatMap (·.2) ++ xs) ++ nd :: (ys ++ post.flatMap (·.2)) := by
    rw [nodes_of_cut hc]; simp
  have hc₁ := entries_setQueue hc (xs ++ ys)
  have ho₁ := levels_setQueue_opp b s p (xs ++ ys)
  have hold : ∀ e, e ∈ pre ∨ e ∈ post → e.2 ≠ [] ∧
      ∃ e₀ ∈ (b.levels s).entries, e₀.1 = e.1 ∧ e.2 ⊆ e₀.2 := fun e he => by
    have hin : e ∈ (b.levels s).entries := by
      rw [hc]; simp only [List.mem_append, List.mem_cons]; tauto
    exact ⟨h.noEmptyLevel s e hin, e, hin, rfl, List.Subset.refl _⟩
  have hopp : ∀ e ∈ (b.levels s.opp).entries, e.2 ≠ [] ∧
      ∃ e₀ ∈ (b.levels s.opp).entries, e₀.1 = e.1 ∧ e.2 ⊆ e₀.2 := fun e he =>
    ⟨h.noEmptyLevel _ e he, e, he, rfl, List.Subset.refl _⟩
  rw [unlink_of_cut hc, herase]
  by_cases hempty : xs ++ ys = []
  · -- the order was the last of its queue
    rw [if_pos (by rw [hempty]; rfl)]
    have hent : (((b.setQueue s p (xs ++ ys)).eraseLevel s p).levels s).entries = pre ++ post := by
      rw [eraseLevel, levels_setLevels, SortedMap.entries_erase_of_cut hc₁]
    have ho : ((b.setQueue s p (xs ++ ys)).eraseLevel s p).levels s.opp = b.levels s.opp := by
      rw [eraseLevel, levels_setLevels_opp, ho₁]
    refine ⟨fun t e he => ?_, ⟨_, _, hn, ?_⟩, nodes_opp ho⟩
    · rcases s.eq_or_eq_opp t with rfl | rfl
      · rw [hent, List.mem_append] at he
        exact hold e he
      · exact hopp e (ho ▸ he)
    · obtain ⟨hxs, hys⟩ := List.append_eq_nil_iff.mp hempty
      rw [nodes, hent, List.flatMap_append, hxs, hys, List.append_nil, List.nil_append]
  · rw [if_neg (by simpa using hempty)]
    refine ⟨fun t e he => ?_, ⟨_, _, hn, ?_⟩, nodes_opp ho₁⟩
    · rcases s.eq_or_eq_opp t with rfl | rfl
      · rw [hc₁, List.mem_append, List.mem_cons] at he
        rcases he with he | rfl | he
        · exact hold e (.inl he)
        · refine ⟨hempty, (p, xs ++ nd :: ys), hpq, rfl, ?_⟩
          exact List.append_subset.mpr ⟨List.subset_append_left .., fun x hx =>
            List.mem_append_right _ (List.mem_cons_of_mem _ hx)⟩
        · exact hold e (.inr he)
      · exact hopp e (ho₁ ▸ he)
    · rw [nodes_of_cut hc₁]; simp

theorem orderIndex_unlink {it : ℕ} : (b.unlink s p it).orderIndex = b.orderIndex := by
  rw [unlink]
  cases (b.levels s).find? p with
  | none => rfl
  | some q => dsimp only; split_ifs <;> cases s <;> rfl

theorem nextIt_unlink {it : ℕ} : (b.unlink s p it).nextIt = b.nextIt := by
  rw [unlink]
  cases (b.levels s).find? p with
  | none => rfl
  | some q => dsimp only; split_ifs <;> cases s <;> rfl

/-- The engine after a cancel that finds the order of node `nd`. -/
theorem cancelOrder_of_find {loc : OrderLocation} (hf : b.orderIndex.find? id = some loc) :
    b.cancelOrder id = (true, { b.unlink loc.side loc.price loc.listIt with
      orderIndex := (b.unlink loc.side loc.price loc.listIt).orderIndex.erase id }) := by
  rw [cancelOrder, hf]
  cases h : loc.side <;> simp only [h]

/-- A cancel is one step of the book. -/
theorem cancelOrder_spec (h : b.Inv) (id : OrderId) : (b.cancelOrder id).2.Inv ∧
    ((b.cancelOrder id).1, (b.cancelOrder id).2.book) = b.book.cancel id := by
  cases hf : b.orderIndex.find? id with
  | none =>
    have hnone := h.placed.index_none_iff.mp hf
    rw [cancelOrder, hf, Book.cancel_of_none hnone]
    exact ⟨h, rfl⟩
  | some loc =>
    obtain ⟨nd, hnd, he⟩ := (h.placed.find id loc).mp hf
    obtain ⟨s, hns⟩ : ∃ s, nd ∈ b.nodes s := by
      rcases (b.mem_live .buy).mp hnd with hnd | hnd
      · exact ⟨_, hnd⟩
      · exact ⟨_, hnd⟩
    have hside : nd.order.side = s := by
      obtain ⟨e, he, hq⟩ := List.mem_flatMap.mp hns
      exact (h.placed.level s e he nd hq).1
    cases he
    obtain ⟨u1, ⟨ys, zs, u2, u3⟩, u4⟩ := unlink_spec h hns
    rw [cancelOrder_of_find hf, orderIndex_unlink]
    dsimp only
    rw [hside]
    set b₂ : StlOrderBook := { b.unlink s nd.order.price nd.it with
      orderIndex := b.orderIndex.erase nd.order.orderId } with hb₂
    have hlv : ∀ t, b₂.levels t = (b.unlink s nd.order.price nd.it).levels t := fun t => by
      cases t <;> rfl
    have hn : ∀ t, b₂.nodes t = (b.unlink s nd.order.price nd.it).nodes t := fun t => by
      rw [nodes, hlv, nodes]
    have hperm : b.live.Perm (nd :: b₂.live) := by
      refine (b.live_perm s).trans (.trans ?_ ((b₂.live_perm s).symm.cons nd))
      rw [hn, hn, u3, u4, u2, ← List.cons_append]
      exact List.perm_middle.append_right _
    refine ⟨⟨h.placed.remove (fun t e he => (u1 t e (hlv t ▸ he)).2) hperm nextIt_unlink rfl,
      fun t e he => (u1 t e (hlv t ▸ he)).1⟩, ?_⟩
    refine (Book.cancel_of_cut (s := s) (ys.map (·.order)) (zs.map (·.order)) (o := nd.order)
      h.placed.ids ?_ ?_ ?_).symm
    · rw [book, resting, u2]; simp
    · rw [book, resting, hn, u3]; simp
    · rw [book, resting, hn, u4]; rfl

end StlOrderBook

end Titan
