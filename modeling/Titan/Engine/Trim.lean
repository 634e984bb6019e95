import Titan.Engine.Run

/-! The pool without the slots that have no number.

    Slot numbers have 32 bits and the top value is the sentinel, so a slot from there on is in no
    list. `trim` cuts these slots off. As long as a pool does not grow, no operation can tell it from
    its trimmed copy: each one commutes with `trim`. -/

namespace Titan
open Schemes

/-- Slots below the sentinel. -/
def maxSlots : ℕ := 2 ^ 32 - 1

theorem toNat_lt_maxSlots {i : UInt32} (h : i ≠ invalidIdx) : i.toNat < maxSlots := by
  have hlt := i.toNat_lt
  have hne : i.toNat ≠ invalidIdx.toNat := fun he => h (UInt32.toNat_inj.mp he)
  have hval : invalidIdx.toNat = 2 ^ 32 - 1 := rfl
  rw [maxSlots]
  omega

/-- The links to slots without a number are sentinels. -/
theorem freeLink_min {n i : ℕ} (hn : n ≤ 2 ^ 32) (hi : i < maxSlots) :
    freeLink (min maxSlots n) i = freeLink n i := by
  rw [freeLink, freeLink]
  by_cases h : i + 1 = maxSlots
  · rw [if_neg (by omega), h]
    split_ifs
    · rfl
    · rfl
  · rw [maxSlots] at *
    split_ifs <;> first | rfl | omega

attribute [ext] PoolOrderBook

namespace PoolOrderBook
variable {b : PoolOrderBook} {s a : Side} {p : Price} {i : UInt32} {l : PriceLevel}

def trim (b : PoolOrderBook) : PoolOrderBook := { b with nodes := b.nodes.take maxSlots }

theorem capacity_trim (b : PoolOrderBook) : b.trim.poolCapacity = min maxSlots b.poolCapacity :=
  List.length_take ..

theorem trim_of_fits (h : b.Fits) : b.trim = b := by
  have hle : b.nodes.length ≤ maxSlots := by
    rw [Fits, poolCapacity] at h
    rw [maxSlots]
    omega
  rw [trim, List.take_of_length_le hle]

@[simp] theorem levels_trim : b.trim.levels s = b.levels s := by cases s <;> rfl

@[simp] theorem levelAt_trim : b.trim.levelAt s p = b.levelAt s p := by
  rw [levelAt, levels_trim, levelAt]

/-- A slot with a number is in the trimmed pool. -/
theorem node_trim (h : i ≠ invalidIdx) : b.trim.node i = b.node i := by
  rw [node, trim, List.getD_eq_getElem?_getD, List.getElem?_take_of_lt (toNat_lt_maxSlots h),
    ← List.getD_eq_getElem?_getD, node]

theorem order_trim (h : i ≠ invalidIdx) : b.trim.order i = b.order i := by
  rw [order, node_trim h, order]

theorem next_trim (h : i ≠ invalidIdx) : b.trim.next i = b.next i := by
  rw [next, node_trim h, next]

theorem prev_trim (h : i ≠ invalidIdx) : b.trim.prev i = b.prev i := by
  rw [prev, node_trim h, prev]

/-! ### Operations on a trimmed pool -/

theorem trim_modifyNode (i : UInt32) (f : OrderNode → OrderNode) :
    b.trim.modifyNode i f = (b.modifyNode i f).trim := by
  rw [modifyNode, modifyNode, trim, trim, List.take_modify]

theorem trim_setPrev (i v : UInt32) : b.trim.setPrev i v = (b.setPrev i v).trim :=
  trim_modifyNode ..

theorem trim_setNext (i v : UInt32) : b.trim.setNext i v = (b.setNext i v).trim :=
  trim_modifyNode ..

theorem trim_setOrder (i : UInt32) (o : Order) : b.trim.setOrder i o = (b.setOrder i o).trim :=
  trim_modifyNode ..

theorem trim_setLevels (s : Side) (m : SortedMap (better s) PriceLevel) :
    b.trim.setLevels s m = (b.setLevels s m).trim := by cases s <;> rfl

theorem trim_setLevel (s : Side) (p : Price) (l : PriceLevel) :
    b.trim.setLevel s p l = (b.setLevel s p l).trim := by
  rw [setLevel, levels_trim, trim_setLevels, setLevel]

theorem trim_eraseLevel (s : Side) (p : Price) :
    b.trim.eraseLevel s p = (b.eraseLevel s p).trim := by
  rw [eraseLevel, levels_trim, trim_setLevels, eraseLevel]

theorem trim_freeNode (i : UInt32) : b.trim.freeNode i = (b.freeNode i).trim := by
  rw [freeNode, trim_setPrev, trim_setNext]
  rfl

theorem trim_removeFromLevel (h : i ≠ invalidIdx) : b.trim.removeFromLevel l i =
    ((b.removeFromLevel l i).1.trim, (b.removeFromLevel l i).2) := by
  simp only [removeFromLevel, prev_trim h, next_trim h]
  split_ifs <;> simp only [trim_setPrev, trim_setNext, order_trim h]

theorem trim_appendToLevel (h : i ≠ invalidIdx) : b.trim.appendToLevel l i =
    ((b.appendToLevel l i).1.trim, (b.appendToLevel l i).2) := by
  simp only [appendToLevel, trim_setPrev, trim_setNext]
  split_ifs <;> simp only [order_trim h]

theorem trim_restAt (h : i ≠ invalidIdx) : b.trim.restAt s p i = (b.restAt s p i).trim := by
  rw [restAt, levelAt_trim, trim_appendToLevel h]
  exact trim_setLevel ..

theorem trim_pop (h : b.freeHead ≠ invalidIdx) (o : Order) : b.trim.pop o = (b.pop o).trim := by
  have hnext : b.trim.next b.freeHead = b.next b.freeHead := next_trim h
  show ({ b.trim with freeHead := b.trim.next b.freeHead } : PoolOrderBook).modifyNode
    b.freeHead _ = _
  rw [hnext]
  exact trim_modifyNode (b := { b with freeHead := b.next b.freeHead }) ..

/-- Resting commutes with `trim` while a slot is free. -/
theorem trim_rest (h : b.freeHead ≠ invalidIdx) (o : Order) :
    b.trim.rest o = (b.rest o).trim := by
  have htrim : b.trim.freeHead ≠ invalidIdx := h
  rw [rest_eq, rest_eq, allocateNode_eq, allocateNode_eq, if_neg h, if_neg htrim, trim_pop h]
  exact trim_restAt (b := { b.pop o with
    orderIndex := (b.pop o).orderIndex.insert o.orderId b.freeHead }) h

theorem trim_unlink (h : i ≠ invalidIdx) : b.trim.unlink s p i = (b.unlink s p i).trim := by
  rw [unlink, unlink, levels_trim]
  cases (b.levels s).find? p with
  | none => rfl
  | some l =>
    dsimp only
    rw [trim_removeFromLevel h]
    dsimp only
    rw [trim_setLevel]
    split_ifs
    · exact trim_eraseLevel ..
    · rfl

/-! ### Matching -/

/-- The matching call on the trimmed pool. -/
def trimmed (m : Matching PoolOrderBook) : Matching PoolOrderBook := { m with book := m.book.trim }

/-- The inner loop reads and writes the slot at the head of the level, and that has a number. -/
theorem matchLevelStep_trimmed (a : Side) (p : Price) (m : Matching PoolOrderBook) :
    matchLevelStep a p (trimmed m) = (matchLevelStep a p m).map trimmed := by
  rw [matchLevelStep, matchLevelStep, trimmed, levelAt_trim]
  dsimp only
  by_cases hgo : (m.book.levelAt a.opp p).headIdx ≠ invalidIdx ∧ m.incoming.remainingQuantity > 0
  · rw [if_pos hgo, if_pos hgo, order_trim hgo.1, trim_setOrder]
    split_ifs
    · set b : PoolOrderBook := m.book.setOrder _ _
      set id := (m.book.order (m.book.levelAt a.opp p).headIdx).orderId
      have hindex : ({ b.trim with orderIndex := b.trim.orderIndex.erase id } : PoolOrderBook) =
          ({ b with orderIndex := b.orderIndex.erase id } : PoolOrderBook).trim := rfl
      rw [hindex, trim_removeFromLevel hgo.1, Option.map_some]
      dsimp only
      rw [trim_setLevel, trim_freeNode]
      rfl
    · rfl
  · rw [if_neg hgo, if_neg hgo]
    rfl

/-- The trimmed pool has less fuel, but enough. -/
theorem matchLevel_trimmed {m : Matching PoolOrderBook} {post : List (Price × PriceLevel)}
    (hs : m.book.trim.Shape []) (hi : m.book.trim.Indexed) (ha : m.incoming.side = a)
    (hc : (m.book.levels a.opp).entries = (p, l) :: post) (hr : m.incoming.Reaches p) :
    matchLevel a p (trimmed m) = trimmed (matchLevel a p m) := by
  have hdone := (matchLevel_spec (m := trimmed m) hs hi ha
    (by rw [← hc]; exact congrArg SortedMap.entries levels_trim) hr).1.done
  have hlen : m.book.trim.nodes.length ≤ m.book.nodes.length := List.length_take_le' ..
  obtain ⟨k, hk⟩ := Nat.exists_eq_add_of_le hlen
  have hfuel : loop (matchLevelStep a p) (m.book.nodes.length + 1) (trimmed m) =
      matchLevel a p (trimmed m) := by
    rw [hk, Nat.add_right_comm]
    exact loop_of_done _ _ _ hdone
  rw [← hfuel]
  exact loop_map (I := fun _ => True) (fun m _ => matchLevelStep_trimmed a p m)
    (fun _ _ _ _ => trivial) _ m trivial

theorem nextLevel_trimmed (a : Side) (m : Matching PoolOrderBook) :
    nextLevel a (trimmed m) = nextLevel a m := by
  rw [nextLevel, nextLevel, trimmed, levels_trim]

theorem matchStep_trimmed {m₀ m : Matching PoolOrderBook} (ha : m₀.incoming.side = a)
    (h : Between a m₀ (trimmed m)) :
    matchStep a (trimmed m) = (matchStep a m).map trimmed := by
  have ham : m.incoming.side = a := h.run.side.trans ha
  rw [matchStep, matchStep, nextLevel_trimmed]
  cases hnext : nextLevel a m with
  | none => rfl
  | some p =>
    rw [← nextLevel_trimmed] at hnext
    obtain ⟨-, hr, l, post, hc⟩ := (nextLevel_eq_some_iff h.run.shape ham).mp hnext
    have hlevels : m.book.trim.levels a.opp = m.book.levels a.opp := levels_trim
    dsimp only
    rw [matchLevel_trimmed h.run.shape h.run.indexed ham (hlevels ▸ hc) hr]
    show (if ((matchLevel a p m).book.trim.levelAt a.opp p).empty then _ else _) = _
    rw [levelAt_trim]
    split_ifs
    · rw [Option.map_some]
      show some { trimmed (matchLevel a p m) with
        book := (matchLevel a p m).book.trim.eraseLevel a.opp p } = _
      rw [trim_eraseLevel]
      rfl
    · rfl

/-- Matching commutes with `trim`. -/
theorem trim_matched (h : b.trim.Inv) (o : Order) (out : List Trade) :
    b.trim.matched o out = trimmed (b.matched o out) := by
  have hside : (b.trim.entry o out).incoming.side = o.side := rfl
  have hstep : ∀ m m', Between o.side (b.trim.entry o out) (trimmed m) →
      matchStep o.side m = some m' → Between o.side (b.trim.entry o out) (trimmed m') := by
    intro m m' hm hstep
    have hstep' : matchStep o.side (trimmed m) = some (trimmed m') := by
      rw [matchStep_trimmed hside hm, hstep]
      rfl
    exact (Between.step hside _ _ hm hstep').1
  have hmap := loop_map (fun m hm => matchStep_trimmed hside hm) hstep
  have hsize : (b.trim.levels o.side.opp).size = (b.levels o.side.opp).size := by rw [levels_trim]
  rw [matched, matchSide]
  show loop _ ((b.trim.levels o.side.opp).size + 1) (trimmed (b.entry o out)) = _
  rw [hsize]
  exact hmap _ (b.entry o out) (.refl h.shape h.indexed h.noEmptyLevel)

/-! ### Entry points -/

/-- The slot of a resting order has a number. -/
theorem Inv.ne_invalid_of_find {id : OrderId} (h : b.Inv) (hf : b.orderIndex.find? id = some i) :
    i ∈ b.live ∧ i ≠ invalidIdx := by
  obtain ⟨hi, -⟩ := (h.indexed.find id i).mp hf
  obtain ⟨s, his⟩ := b.exists_queued hi
  exact ⟨hi, h.shape.ne_invalid (h.shape.range_of_mem (.inr (.inr ⟨s, his⟩)))⟩

theorem trim_cancelOrder (h : b.trim.Inv) (id : OrderId) :
    b.trim.cancelOrder id = ((b.cancelOrder id).1, (b.cancelOrder id).2.trim) := by
  have hindex : b.trim.orderIndex = b.orderIndex := rfl
  cases hf : b.orderIndex.find? id with
  | none => rw [cancelOrder, cancelOrder, hindex, hf]
  | some i =>
    have hne := (h.ne_invalid_of_find (hindex ▸ hf)).2
    rw [cancelOrder_of_find hf, cancelOrder_of_find (hindex ▸ hf), order_trim hne,
      trim_unlink hne, trim_freeNode]
    rfl

/-- Clearing commutes with `trim`. -/
theorem trim_clear (h : b.poolCapacity ≤ 2 ^ 32) : b.trim.clear = b.clear.trim := by
  have hlen : b.trim.nodes.length = min maxSlots b.nodes.length := capacity_trim b
  have hlink : ∀ k < maxSlots,
      freeLink (min maxSlots b.nodes.length) k = freeLink b.nodes.length k :=
    fun k hk => freeLink_min h hk
  have hnodes : b.trim.clear.nodes = b.clear.trim.nodes := by
    refine List.ext_getElem? fun k => ?_
    show (b.trim.nodes.mapIdx _)[k]? = ((b.nodes.mapIdx _).take maxSlots)[k]?
    rw [List.getElem?_mapIdx, List.getElem?_take, hlen]
    by_cases hk : k < maxSlots
    · rw [if_pos hk, List.getElem?_mapIdx, trim, List.getElem?_take_of_lt hk, hlink k hk]
    · rw [if_neg hk, trim, List.getElem?_take_eq_none (by omega)]
      rfl
  have hhead : b.trim.clear.freeHead = b.clear.trim.freeHead := by
    show (if b.trim.nodes.length > 0 then (0 : UInt32) else invalidIdx) =
      if b.nodes.length > 0 then 0 else invalidIdx
    rw [hlen]
    by_cases h0 : b.nodes.length > 0
    · rw [if_pos h0, if_pos (by rw [maxSlots]; omega)]
    · rw [if_neg h0, if_neg (by omega)]
  exact PoolOrderBook.ext hnodes hhead rfl rfl rfl

/-! ### New slots -/

/-- The slots from `start` on of a pool of `size` slots, as they are laid out. -/
def newNodes (start size : ℕ) : List OrderNode :=
  (List.range' start (size - start)).map fun i =>
    { prevIdx := invalidIdx, nextIdx := freeLink size i }

theorem take_newNodes {start size : ℕ} (h : size ≤ 2 ^ 32) :
    (newNodes start size).take (maxSlots - start) = newNodes start (min maxSlots size) := by
  have htake : (List.range' start (size - start)).take (maxSlots - start) =
      List.range' start (min maxSlots size - start) := by
    rcases Nat.le_total size maxSlots with hle | hle
    · rw [Nat.min_eq_right hle, List.take_range'_of_length_le (by omega)]
    · rw [Nat.min_eq_left hle, List.take_range'_of_length_ge (by omega)]
  rw [newNodes, newNodes, ← List.map_take, htake]
  refine List.map_congr_left fun i hi => ?_
  obtain ⟨hge, hlt⟩ := List.mem_range'_1.mp hi
  rw [freeLink_min h (by omega)]

theorem trim_growTo {n : ℕ} (h : b.Fits) (hn : n ≤ 2 ^ 32) :
    (b.growTo n).trim = b.growTo (min maxSlots n) := by
  have hle : b.nodes.length ≤ maxSlots := by
    rw [Fits, poolCapacity] at h
    rw [maxSlots]
    omega
  have hnodes : (b.nodes ++ newNodes b.nodes.length n).take maxSlots =
      b.nodes ++ newNodes b.nodes.length (min maxSlots n) := by
    rw [List.take_append, List.take_of_length_le hle, take_newNodes hn]
  exact PoolOrderBook.ext hnodes rfl rfl rfl rfl

theorem trim_ctor {n : ℕ} (h : n ≤ 2 ^ 32) : (ctor n).trim = ctor (min maxSlots n) := by
  have hnew : ∀ m, (ctor m).nodes = newNodes 0 m := by
    intro m
    rw [ctor, newNodes, List.range_eq_range', Nat.sub_zero]
  have hnodes : (ctor n).nodes.take maxSlots = (ctor (min maxSlots n)).nodes := by
    rw [hnew, hnew]
    exact @take_newNodes 0 n h
  have hhead : (ctor n).freeHead = (ctor (min maxSlots n)).freeHead := by
    show (if n > 0 then (0 : UInt32) else invalidIdx) =
      if min maxSlots n > 0 then 0 else invalidIdx
    by_cases h0 : n > 0
    · rw [if_pos h0, if_pos (by rw [maxSlots]; omega)]
    · rw [if_neg h0, if_neg (by omega)]
  exact PoolOrderBook.ext hnodes hhead rfl rfl rfl

end PoolOrderBook

end Titan
