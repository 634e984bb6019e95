import Titan.Engine.Run

/-! The iterators in the index of the reference engine.

    The index leads from an id to a node of a list, so a cancel and a lookup are as good as the
    iterator that was stored when the order came to rest. No iterator dangles, and none moves while
    its order rests: matching shrinks the maker in place, and an id that is in use is refused. -/

namespace Titan
open Schemes

namespace StlOrderBook
variable {b b' b'' : StlOrderBook} {s a : Side} {p : Price} {id : OrderId} {loc : OrderLocation}

/-- What is true of the index and the lists between any two calls. -/
structure Anchored (b : StlOrderBook) : Prop where
  /-- An entry leads to a node in the list of its side and price, which holds the order of the id. -/
  target : ∀ id loc, b.orderIndex.find? id = some loc ↔
    ∃ queue nd, (b.levels loc.side).find? loc.price = some queue ∧ nd ∈ queue ∧
      nd.it = loc.listIt ∧ nd.order.orderId = id
  /-- No two nodes of the lists have one iterator, so there is one such node. -/
  distinct : (b.live.map (·.it)).Nodup
  /-- That is the order that the iterator gives. -/
  deref : ∀ id loc, b.orderIndex.find? id = some loc →
    (b.deref loc.listIt).orderId = id ∧ (b.deref loc.listIt).side = loc.side ∧
      (b.deref loc.listIt).price = loc.price
  /-- No two ids have one iterator. -/
  unique : ∀ id id' loc loc', b.orderIndex.find? id = some loc →
    b.orderIndex.find? id' = some loc' → loc.listIt = loc'.listIt → id = id'
  /-- No list is empty, and every node of a list is indexed. -/
  nodes : ∀ s, ∀ e ∈ (b.levels s).entries, e.2 ≠ [] ∧
    ∀ nd ∈ e.2, b.orderIndex.find? nd.order.orderId = some ⟨s, e.1, nd.it⟩

theorem mem_live_of_level {e : Price × List ListNode} {nd : ListNode}
    (he : e ∈ (b.levels s).entries) (hnd : nd ∈ e.2) : nd ∈ b.live :=
  (b.mem_live s).mpr (.inl (List.mem_flatMap.mpr ⟨e, he, hnd⟩))

theorem exists_level_of_live {nd : ListNode} (hnd : nd ∈ b.live) :
    ∃ s, ∃ e ∈ (b.levels s).entries, nd ∈ e.2 := by
  rcases (b.mem_live .buy).mp hnd with hnd | hnd
  · exact ⟨_, List.mem_flatMap.mp hnd⟩
  · exact ⟨_, List.mem_flatMap.mp hnd⟩

theorem Inv.anchored (h : b.Inv) : b.Anchored where
  target id loc := by
    rw [h.placed.find]
    constructor
    · rintro ⟨nd, hnd, hentry⟩
      cases hentry
      obtain ⟨s, e, he, hmem⟩ := exists_level_of_live hnd
      obtain ⟨hside, hprice⟩ := h.placed.level s e he nd hmem
      refine ⟨e.2, nd, ?_, hmem, rfl, rfl⟩
      rw [hside, hprice]
      exact SortedMap.find?_eq_some_iff_mem.mpr he
    · rintro ⟨queue, nd, hqueue, hmem, hit, rfl⟩
      have he := SortedMap.find?_eq_some_iff_mem.mp hqueue
      obtain ⟨hside, hprice⟩ := h.placed.level _ _ he nd hmem
      refine ⟨nd, mem_live_of_level he hmem, ?_⟩
      rw [ListNode.entry, hside, hprice, hit]
  distinct := h.placed.its
  deref id loc hfind := by
    obtain ⟨nd, hnd, hentry⟩ := (h.placed.find id loc).mp hfind
    cases hentry
    rw [h.placed.deref_eq hnd]
    exact ⟨rfl, rfl, rfl⟩
  unique id id' loc loc' hfind hfind' hit := by
    obtain ⟨nd, hnd, hentry⟩ := (h.placed.find id loc).mp hfind
    obtain ⟨nd', hnd', hentry'⟩ := (h.placed.find id' loc').mp hfind'
    cases hentry
    cases hentry'
    rw [List.inj_on_of_nodup_map h.placed.its hnd hnd' hit]
  nodes s e he := by
    refine ⟨h.noEmptyLevel s e he, fun nd hnd => ?_⟩
    obtain ⟨hside, hprice⟩ := h.placed.level s e he nd hnd
    rw [h.placed.find]
    refine ⟨nd, mem_live_of_level he hnd, ?_⟩
    rw [ListNode.entry, hside, hprice]

/-! ### Iterators over time -/

/-- The entries of the later index are entries of the earlier one, or of ids that it did not have. -/
def Keeps (b b' : StlOrderBook) : Prop := ∀ e ∈ b'.orderIndex.entries,
  e ∈ b.orderIndex.entries ∨ b.orderIndex.find? e.1 = none

/-- Entries only go. -/
def Drops (b b' : StlOrderBook) : Prop := ∀ e ∈ b'.orderIndex.entries, e ∈ b.orderIndex.entries

theorem Drops.trans (h : Drops b b') (h' : Drops b' b'') : Drops b b'' := fun e he => h e (h' e he)

theorem Drops.of_eq (h : b'.orderIndex = b.orderIndex) : Drops b b' := by
  rw [Drops, h]
  exact fun _ he => he

theorem Drops.of_erase (h : b'.orderIndex = b.orderIndex.erase id) : Drops b b' := by
  intro e he
  rw [h, SortedMap.entries_erase] at he
  exact List.mem_of_mem_filter he

theorem Drops.keeps (h : Drops b b') : Keeps b b' := fun e he => .inl (h e he)

theorem Keeps.find (h : Keeps b b') {loc' : OrderLocation} (hfind : b.orderIndex.find? id = some loc)
    (hfind' : b'.orderIndex.find? id = some loc') : loc' = loc := by
  rcases h _ (SortedMap.find?_eq_some_iff_mem.mp hfind') with he | hnone
  · rw [← Option.some_inj, ← hfind, SortedMap.find?_eq_some_iff_mem.mpr he]
  · rw [hfind] at hnone
    cases hnone

section Matching
variable {m m' : Matching StlOrderBook}

theorem drops_matchLevelStep (h : matchLevelStep a p m = some m') : Drops m.book m'.book := by
  unfold matchLevelStep at h
  split at h
  · cases h
  · dsimp only at h
    split_ifs at h <;> cases h
    · exact .of_erase (orderIndex_setLevels _)
    · exact .of_eq (orderIndex_setLevels _)

theorem drops_matchLevel (a : Side) (p : Price) (m : Matching StlOrderBook) :
    Drops m.book (matchLevel a p m).book :=
  (loop_iterates _ m).invariant (I := fun m' => Drops m.book m'.book)
    (fun _ _ hd hstep => hd.trans (drops_matchLevelStep hstep)) (.of_eq rfl)

theorem drops_matchStep (h : matchStep a m = some m') : Drops m.book m'.book := by
  unfold matchStep at h
  split at h
  · cases h
  · rename_i p _
    have hlevel := drops_matchLevel a p m
    dsimp only at h
    split_ifs at h <;> cases h
    · exact hlevel.trans (.of_eq (orderIndex_setLevels _))
    · exact hlevel

theorem drops_matchSide (a : Side) (m : Matching StlOrderBook) :
    Drops m.book (matchSide a m).book :=
  (loop_iterates _ m).invariant (I := fun m' => Drops m.book m'.book)
    (fun _ _ hd hstep => hd.trans (drops_matchStep hstep)) (.of_eq rfl)

end Matching

theorem orderIndex_restAt (b : StlOrderBook) (s : Side) (o : Order) : (b.restAt s o).orderIndex =
    b.orderIndex.insert o.orderId ⟨s, o.price, b.nextIt⟩ := by
  rw [restAt]
  dsimp only
  rw [setQueue, orderIndex_setLevels]

theorem drops_cancelOrder (b : StlOrderBook) (id : OrderId) : Drops b (b.cancelOrder id).2 := by
  cases hf : b.orderIndex.find? id with
  | none =>
    rw [cancelOrder, hf]
    exact .of_eq rfl
  | some loc =>
    rw [cancelOrder_of_find hf]
    refine Drops.of_erase (show _ = b.orderIndex.erase id from ?_)
    dsimp only
    rw [orderIndex_unlink]

/-- A submission indexes its own order and no other. -/
theorem Inv.keeps_submitOrder (h : b.Inv) (o : Order) (out : List Trade) :
    Keeps b (b.submitOrder o out).2.2 := by
  have hmatched : Drops b (b.matched o out).book := drops_matchSide o.side (b.entry o out)
  rw [submitOrder_eq h]
  split_ifs with hacc hrest
  · -- the order comes to rest under an id that was not in use
    obtain ⟨hb, -, hincoming, -⟩ := matched_spec h o out
    have hnew : b.orderIndex.find? o.orderId = none := h.placed.index_none_iff.mpr hacc.2.2
    have hid : (b.matched o out).incoming.orderId = o.orderId := by rw [hincoming]
    rw [← hid] at hnew
    intro e he
    dsimp only at he
    rw [orderIndex_restAt, SortedMap.entries_insert] at he
    rcases SortedMap.mem_put he with rfl | he
    · exact .inr hnew
    · exact .inl (hmatched e he)
  · exact hmatched.keeps
  · exact Drops.keeps (.of_eq rfl)

theorem Inv.keeps_call (h : b.Inv) (c : Call) : Keeps b (b.call c).2 := by
  cases c with
  | submit o out => exact h.keeps_submitOrder o out
  | cancel id => exact (b.drops_cancelOrder id).keeps
  | clear => exact Drops.keeps fun _ he => absurd he List.not_mem_nil

/-- In every state of every run of the reference engine the index and the lists fit together, and no
    call moves the iterator of an order that rests before and after it. -/
theorem iterators_valid (h : b.Reachable) : b.Anchored ∧
    ∀ c id loc loc', b.orderIndex.find? id = some loc →
      (b.call c).2.orderIndex.find? id = some loc' → loc' = loc :=
  ⟨h.good.1.anchored, fun c _ _ _ hfind hfind' => (h.good.1.keeps_call c).find hfind hfind'⟩

/-- A maker keeps its iterator when it is traded with. -/
theorem iterators_valid_morning : let b := final call {} (tradingDay.take 4)
    let c := Call.submit { orderId := 4, price := 101, initialQuantity := 8 } []
    b.Anchored ∧ (b.call c).1.outTrades.map (·.makerOrderId) = [1, 2] ∧
    ∃ loc, b.orderIndex.find? 2 = some loc ∧ (b.call c).2.orderIndex.find? 2 = some loc := by
  intro b c
  have h := iterators_valid (b := b) ⟨tradingDay.take 4, rfl⟩
  obtain ⟨loc, hloc⟩ : ∃ loc, b.orderIndex.find? 2 = some loc :=
    Option.isSome_iff_exists.mp (by decide)
  obtain ⟨loc', hloc'⟩ : ∃ loc, (b.call c).2.orderIndex.find? 2 = some loc :=
    Option.isSome_iff_exists.mp (by decide)
  refine ⟨h.1, by decide, loc, hloc, ?_⟩
  rw [hloc', h.2 c 2 loc loc' hloc hloc']

end StlOrderBook

end Titan
