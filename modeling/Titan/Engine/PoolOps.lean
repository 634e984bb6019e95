import Titan.Engine.PoolShape

/-! The pointer operations of the pool keep its shape.

    One lemma an operation: which slots it moves from which place to which, and what it leaves
    alone. Nothing above this module looks at a link again. -/

namespace Titan
open Schemes
open Function (update)

namespace PoolOrderBook
variable {b : PoolOrderBook} {i j : UInt32} {s : Side} {p : Price} {l : PriceLevel}
  {held : List UInt32} {pre post : List (Price × PriceLevel)} {xs ys : List UInt32}

/-! ### Fields that an operation does not touch -/

@[simp] theorem freeHead_modifyNode (f : OrderNode → OrderNode) :
    (b.modifyNode i f).freeHead = b.freeHead := rfl

@[simp] theorem orderIndex_modifyNode (f : OrderNode → OrderNode) :
    (b.modifyNode i f).orderIndex = b.orderIndex := rfl

@[simp] theorem levels_removeFromLevel : (b.removeFromLevel l i).1.levels s = b.levels s := by
  simp only [removeFromLevel]
  split_ifs <;> simp [setNext, setPrev]

@[simp] theorem length_removeFromLevel :
    (b.removeFromLevel l i).1.nodes.length = b.nodes.length := by
  simp only [removeFromLevel]
  split_ifs <;> simp [setNext, setPrev]

@[simp] theorem order_removeFromLevel : (b.removeFromLevel l i).1.order = b.order := by
  simp only [removeFromLevel]
  split_ifs <;> simp

@[simp] theorem freeHead_removeFromLevel : (b.removeFromLevel l i).1.freeHead = b.freeHead := by
  simp only [removeFromLevel]
  split_ifs <;> rfl

@[simp] theorem orderIndex_removeFromLevel :
    (b.removeFromLevel l i).1.orderIndex = b.orderIndex := by
  simp only [removeFromLevel]
  split_ifs <;> rfl

@[simp] theorem levels_appendToLevel : (b.appendToLevel l i).1.levels s = b.levels s := by
  simp only [appendToLevel]
  split_ifs <;> simp [setNext, setPrev]

@[simp] theorem length_appendToLevel : (b.appendToLevel l i).1.nodes.length = b.nodes.length := by
  simp only [appendToLevel]
  split_ifs <;> simp [setNext, setPrev]

@[simp] theorem order_appendToLevel : (b.appendToLevel l i).1.order = b.order := by
  simp only [appendToLevel]
  split_ifs <;> simp

@[simp] theorem freeHead_appendToLevel : (b.appendToLevel l i).1.freeHead = b.freeHead := by
  simp only [appendToLevel]
  split_ifs <;> rfl

@[simp] theorem orderIndex_appendToLevel : (b.appendToLevel l i).1.orderIndex = b.orderIndex := by
  simp only [appendToLevel]
  split_ifs <;> rfl

theorem levelSlots_setOrder (o : Order) : (b.setOrder i o).levelSlots = b.levelSlots := by
  funext l; rw [levelSlots, next_setOrder]; simp [levelSlots, setOrder]

@[simp] theorem totalVolume_removeFromLevel : (b.removeFromLevel l i).2.totalVolume =
    l.totalVolume - (b.order i).remainingQuantity := by
  simp only [removeFromLevel]
  split_ifs <;> simp

@[simp] theorem totalVolume_appendToLevel : (b.appendToLevel l i).2.totalVolume =
    l.totalVolume + (b.order i).remainingQuantity := by
  simp only [appendToLevel]
  split_ifs <;> simp

@[simp] theorem levels_freeNode : (b.freeNode i).levels s = b.levels s := by cases s <;> rfl

@[simp] theorem length_freeNode : (b.freeNode i).nodes.length = b.nodes.length := by
  simp [freeNode, setNext, setPrev]

@[simp] theorem orderIndex_freeNode : (b.freeNode i).orderIndex = b.orderIndex := rfl

theorem node_freeNode_of_ne (h : j ≠ i) : (b.freeNode i).node j = b.node j := by
  show ((b.setPrev i invalidIdx).setNext i b.freeHead).node j = _
  rw [setNext, node_modifyNode_of_ne _ h, setPrev, node_modifyNode_of_ne _ h]

@[simp] theorem order_freeNode : (b.freeNode i).order = b.order := by
  show ((b.setPrev i invalidIdx).setNext i b.freeHead).order = _
  rw [order_setNext, order_setPrev]

@[simp] theorem order_setLevels (m : SortedMap (better s) PriceLevel) :
    (b.setLevels s m).order = b.order := by
  funext i; rw [order, node_congr (nodes_setLevels m), order]

@[simp] theorem next_setLevels (m : SortedMap (better s) PriceLevel) :
    (b.setLevels s m).next = b.next := by
  funext i; rw [next, node_congr (nodes_setLevels m), next]

theorem LevelInv.setLevels {t : Side} {m : SortedMap (better s) PriceLevel} :
    (b.setLevels s m).LevelInv t p l xs ↔ b.LevelInv t p l xs := by
  constructor <;> exact LevelInv.congr fun i _ => by rw [node_congr (nodes_setLevels m)]

/-- `removeFromLevel` with the level written back to its map. -/
def detach (b : PoolOrderBook) (s : Side) (p : Price) (l : PriceLevel) (i : UInt32) :
    PoolOrderBook :=
  (b.removeFromLevel l i).1.setLevel s p (b.removeFromLevel l i).2

/-- `appendToLevel` with the level written back to its map. -/
def attach (b : PoolOrderBook) (s : Side) (p : Price) (l : PriceLevel) (i : UInt32) :
    PoolOrderBook :=
  (b.appendToLevel l i).1.setLevel s p (b.appendToLevel l i).2

/-! ### Reading a level off the shape -/

namespace Shape

theorem level_of_cut (h : b.Shape held) (hc : (b.levels s).entries = pre ++ (p, l) :: post) :
    b.LevelInv s p l (b.levelSlots l) := h.level s (p, l) (by rw [hc]; simp)

theorem range_of_cut (h : b.Shape held) (hc : (b.levels s).entries = pre ++ (p, l) :: post)
    (hi : i ∈ b.levelSlots l) : i.toNat < b.nodes.length :=
  h.range_of_mem (.inr (.inr ⟨s, levelSlots_subset (e := (p, l)) (by rw [hc]; simp) hi⟩))

theorem ne_invalid (h : b.Shape held) (hr : i.toNat < b.nodes.length) : i ≠ invalidIdx := by
  rintro rfl
  have h1 := h.capacity
  have h2 : invalidIdx.toNat = 2 ^ 32 - 1 := rfl
  omega

/-- A neighbour in a queue is the sentinel or a member of the queue. -/
theorem getD_mem {o : Option UInt32} {zs : List UInt32} (h : ∀ x ∈ o, x ∈ zs)
    (hne : o.getD invalidIdx ≠ invalidIdx) : o.getD invalidIdx ∈ zs := by
  cases o with
  | none => exact absurd rfl hne
  | some x => exact h x rfl

theorem prev_mem (hl : b.LevelInv s p l (xs ++ i :: ys)) (hne : b.prev i ≠ invalidIdx) :
    b.prev i ∈ xs ++ i :: ys := by
  rw [hl.links.prev_eq] at hne ⊢
  exact getD_mem (fun x hx => List.mem_append_left _ (List.mem_of_getLast? hx)) hne

theorem next_mem (hl : b.LevelInv s p l (xs ++ i :: ys)) (hne : b.next i ≠ invalidIdx) :
    b.next i ∈ xs ++ i :: ys := by
  rw [hl.links.next_eq] at hne ⊢
  exact getD_mem (fun x hx => List.mem_append_right _
    (List.mem_cons_of_mem _ (List.mem_of_head? hx))) hne

/-! ### Operations -/

/-- Freeing puts a detached slot in front of the free list. -/
theorem freeNode (h : b.Shape (i :: held)) : (b.freeNode i).Shape held ∧
    (b.freeNode i).freeSlots = i :: b.freeSlots ∧ ∀ t, (b.freeNode i).queued t = b.queued t := by
  have hr : i.toNat < b.nodes.length := h.range_of_mem (.inr (.inl (by simp)))
  have hnext : (b.freeNode i).next = update b.next i b.freeHead := by
    show ((b.setPrev i invalidIdx).setNext i b.freeHead).next = _
    rw [next_setNext (by simpa [setPrev] using hr), next_setPrev]
  have hfree : i ∉ b.freeSlots := fun hm => by
    have h1 := h.once_le .buy i
    have h2 := List.count_pos_iff.mpr hm
    simp only [List.count_cons_self] at h1
    omega
  obtain ⟨h1, h2, h3, h4⟩ := h.reshape (b.freeNode i) .buy [] [] [] (b.levels .buy).entries
    b.levelSlots held (i :: b.freeSlots)
    (by simp [PoolOrderBook.freeNode, setNext, setPrev]) rfl rfl rfl
    (fun j _ hj _ => by
      have hne : j ≠ i := fun he => hj (by simp [he])
      show ((b.setPrev i invalidIdx).setNext i b.freeHead).node j = _
      rw [setNext, node_modifyNode_of_ne _ hne, setPrev, node_modifyNode_of_ne _ hne])
    (by simp)
    ⟨rfl, by
      rw [hnext, Function.update_self]
      exact h.free.update_of_notMem hfree⟩
    (fun j => by simp only [List.count_cons, List.flatMap_nil, List.count_nil]; omega)
  refine ⟨h1, h2, fun t => ?_⟩
  cases t with
  | buy => simpa [queued] using h3
  | sell => exact h4

/-- Unlinking writes the two neighbours of the slot and no other slot. -/
theorem node_removeFromLevel (hl : b.LevelInv s p l (xs ++ i :: ys)) (hj : j ∉ xs ++ i :: ys) :
    (b.removeFromLevel l i).1.node j = b.node j := by
  simp only [PoolOrderBook.removeFromLevel]
  have hp : b.prev i ≠ invalidIdx → j ≠ b.prev i := fun hne he => hj (he ▸ prev_mem hl hne)
  have hn : b.next i ≠ invalidIdx → j ≠ b.next i := fun hne he => hj (he ▸ next_mem hl hne)
  by_cases h1 : b.prev i = invalidIdx <;> by_cases h2 : b.next i = invalidIdx
  · simp [h1, h2]
  · simp [h1, h2, setPrev, node_modifyNode_of_ne _ (hn h2)]
  · simp [h1, h2, setNext, node_modifyNode_of_ne _ (hp h1)]
  · simp [h1, h2, setPrev, setNext, node_modifyNode_of_ne _ (hn h2),
      node_modifyNode_of_ne _ (hp h1)]

/-- Unlinking moves slot `i` from the level under `p` to the detached slots. -/
theorem detach (h : b.Shape held) (hc : (b.levels s).entries = pre ++ (p, l) :: post)
    (hl : b.levelSlots l = xs ++ i :: ys) :
    (b.detach s p l i).Shape (i :: held) ∧
    (b.detach s p l i).freeSlots = b.freeSlots ∧
    (b.detach s p l i).LevelInv s p (b.removeFromLevel l i).2 (xs ++ ys) ∧
    (b.detach s p l i).queued s = pre.flatMap (fun e => b.levelSlots e.2) ++ (xs ++ ys) ++
      post.flatMap (fun e => b.levelSlots e.2) ∧
    (b.detach s p l i).queued s.opp = b.queued s.opp := by
  have hlv := h.level_of_cut hc
  rw [hl] at hlv
  have hrange : ∀ j ∈ xs ++ i :: ys, j.toNat < b.nodes.length := fun j hj =>
    h.range_of_cut hc (hl ▸ hj)
  -- the two neighbours are redirected around `i`
  have hnext : (b.removeFromLevel l i).1.next =
      if b.prev i = invalidIdx then b.next else update b.next (b.prev i) (b.next i) := by
    simp only [PoolOrderBook.removeFromLevel]
    by_cases hp : b.prev i = invalidIdx
    · rw [if_neg (not_not.mpr hp), if_pos hp]
      split_ifs <;> simp
    · rw [if_pos hp, if_neg hp, ← next_setNext (hrange _ (prev_mem hlv hp))]
      split_ifs <;> simp
  have hprev : (b.removeFromLevel l i).1.prev =
      if b.next i = invalidIdx then b.prev else update b.prev (b.next i) (b.prev i) := by
    simp only [PoolOrderBook.removeFromLevel]
    by_cases hn : b.next i = invalidIdx
    · rw [if_neg (not_not.mpr hn), if_pos hn]
      split_ifs <;> simp
    · rw [if_pos hn, if_neg hn, prev_setPrev]
      · split_ifs <;> simp
      · have := hrange _ (next_mem hlv hn)
        split_ifs <;> simpa [setNext] using this
  have hlev : (b.removeFromLevel l i).1.LevelInv s p (b.removeFromLevel l i).2 (xs ++ ys) := by
    refine ⟨?_, ?_, hlv.price, fun j hj => ?_⟩
    · have := hlv.links.unlink
      rw [hnext, hprev]
      simpa only [PoolOrderBook.removeFromLevel, ne_eq, ite_not] using this
    · have hcnt := hlv.count
      have hone : (1 : UInt32) ≤ l.orderCount := UInt32.le_iff_toNat_le.mpr (by
        rw [hcnt, List.length_append, List.length_cons]
        exact Nat.le_add_left ..)
      show (l.orderCount - 1).toNat = _
      rw [UInt32.toNat_sub_of_le _ _ hone, hcnt]
      simp
    · rw [order_removeFromLevel]
      exact hlv.orders j (by simp at hj ⊢; tauto)
  have hcut : ((b.removeFromLevel l i).1.levels s).entries = pre ++ (p, l) :: post := by
    rw [levels_removeFromLevel, hc]
  obtain ⟨h1, h2, h3, h4⟩ := h.reshape (b.detach s p l i) s pre [(p, l)]
    [(p, (b.removeFromLevel l i).2)] post (fun _ => xs ++ ys) (i :: held) b.freeSlots
    (by simp [PoolOrderBook.detach, setLevel]) (by simp [hc])
    (by rw [PoolOrderBook.detach, setLevel, levels_setLevels,
      SortedMap.entries_insert_of_cut hcut]; simp)
    (by simp [PoolOrderBook.detach, setLevel])
    (fun j _ _ hj => by
      rw [PoolOrderBook.detach, setLevel, node_congr (nodes_setLevels _)]
      exact node_removeFromLevel hlv (by simpa [hl] using hj))
    (by simpa [PoolOrderBook.detach, setLevel, LevelInv.setLevels] using hlev)
    (by
      rw [PoolOrderBook.detach, setLevel, freeHead_setLevels, freeHead_removeFromLevel,
        next_setLevels, hnext]
      split_ifs with hp
      · exact h.free
      · refine h.free.update_of_notMem fun hm => ?_
        have h1 := h.once_le s (b.prev i)
        have h2 := List.count_pos_iff.mpr hm
        have h3 := List.count_pos_iff.mpr
          (levelSlots_subset (e := (p, l)) (by rw [hc]; simp) (hl ▸ prev_mem hlv hp))
        omega)
    (fun j => by
      simp only [List.flatMap_cons, List.flatMap_nil, hl, List.count_append, List.count_cons,
        List.count_nil]
      omega)
  exact ⟨h1, h2, LevelInv.setLevels.mpr hlev, by simpa using h3, h4⟩

/-- Appending moves the detached slot `i` to the tail of the level under `p`; `mid` is that level
    in the map before, or nothing when the level is new. -/
theorem attach {mid : List (Price × PriceLevel)} (h : b.Shape (i :: held))
    (hc : (b.levels s).entries = pre ++ mid ++ post)
    (hins : ∀ l', ((b.levels s).insert p l').entries = pre ++ (p, l') :: post)
    (hl : b.LevelInv s p l xs) (hmid : mid.flatMap (fun e => b.levelSlots e.2) = xs)
    (ho : (b.order i).side = s ∧ (b.order i).price = p) :
    (b.attach s p l i).Shape held ∧
    (b.attach s p l i).freeSlots = b.freeSlots ∧
    (b.attach s p l i).queued s = pre.flatMap (fun e => b.levelSlots e.2) ++ (xs ++ [i]) ++
      post.flatMap (fun e => b.levelSlots e.2) ∧
    (b.attach s p l i).queued s.opp = b.queued s.opp := by
  have hri : i.toNat < b.nodes.length := h.range_of_mem (.inr (.inl (by simp)))
  have hsub : ∀ j, xs.count j ≤ (b.queued s).count j := fun j => by
    rw [queued, hc, List.flatMap_append, List.flatMap_append, hmid, List.count_append,
      List.count_append]
    omega
  have hrange : ∀ j ∈ xs, j.toNat < b.nodes.length := fun j hj =>
    h.range_of_mem (.inr (.inr ⟨s, List.count_pos_iff.mp
      (Nat.lt_of_lt_of_le (List.count_pos_iff.mpr hj) (hsub j))⟩))
  have hi : i ∉ xs := fun hm => by
    have h1 := h.once_le s i
    have h2 := List.count_pos_iff.mpr hm
    have h3 := hsub i
    simp only [List.count_cons_self] at h1
    omega
  have htail : l.tailIdx ≠ invalidIdx → l.tailIdx ∈ xs := fun hne => by
    have := hl.links.symm.head_eq
    rw [this] at hne ⊢
    exact getD_mem (fun x hx => by simpa using List.mem_of_head? hx) hne
  have hnext : (b.appendToLevel l i).1.next = if l.tailIdx = invalidIdx
      then update b.next i invalidIdx
      else update (update b.next i invalidIdx) l.tailIdx i := by
    have hi1 : ((b.setPrev i l.tailIdx).setNext i invalidIdx).next =
        update b.next i invalidIdx := by
      rw [next_setNext (by simpa [setPrev] using hri), next_setPrev]
    simp only [appendToLevel, ne_eq, ite_not]
    split_ifs with ht
    · exact hi1
    · rw [next_setNext (by simpa [setPrev, setNext] using hrange _ (htail ht)), hi1]
  have hprev : (b.appendToLevel l i).1.prev = update b.prev i l.tailIdx := by
    simp only [appendToLevel]
    split_ifs <;> simp [hri]
  have hnode : ∀ j, j ≠ i → j ∉ xs → (b.appendToLevel l i).1.node j = b.node j := by
    intro j hji hj
    simp only [appendToLevel, ne_eq, ite_not]
    split_ifs with ht
    · rw [setNext, node_modifyNode_of_ne _ hji, setPrev, node_modifyNode_of_ne _ hji]
    · have hjt : j ≠ l.tailIdx := fun he => hj (he ▸ htail ht)
      rw [setNext, node_modifyNode_of_ne _ hjt, setNext, node_modifyNode_of_ne _ hji, setPrev,
        node_modifyNode_of_ne _ hji]
  have hlinks : DQueue invalidIdx (b.appendToLevel l i).1.next (b.appendToLevel l i).1.prev
      (b.appendToLevel l i).2.headIdx (b.appendToLevel l i).2.tailIdx (xs ++ [i]) := by
    have := hl.links.pushBack hi (h.ne_invalid hri)
    rw [hnext, hprev]
    simpa only [appendToLevel, ne_eq, ite_not] using this
  have hrange' : ∀ j ∈ xs ++ [i], j.toNat < b.nodes.length :=
    List.forall_mem_append.mpr ⟨hrange, by simpa using hri⟩
  have hlev : (b.appendToLevel l i).1.LevelInv s p (b.appendToLevel l i).2 (xs ++ [i]) := by
    refine ⟨hlinks, ?_, hl.price, fun j hj => ?_⟩
    · have hlen := length_le_of_nodup hlinks.nodup hrange'
      have hcap := h.capacity
      show (l.orderCount + 1).toNat = _
      rw [UInt32.toNat_add, hl.count, List.length_append]
      simp only [List.length_append, List.length_singleton] at hlen ⊢
      exact Nat.mod_eq_of_lt (by simp only [UInt32.toNat_one]; omega)
    · rw [order_appendToLevel]
      rcases List.mem_append.mp hj with hj | hj
      · exact hl.orders j hj
      · rw [List.mem_singleton.mp hj]; exact ho
  obtain ⟨h1, h2, h3, h4⟩ := h.reshape (b.attach s p l i) s pre mid
    [(p, (b.appendToLevel l i).2)] post (fun _ => xs ++ [i]) held b.freeSlots
    (by simp [PoolOrderBook.attach, setLevel]) hc
    (by rw [PoolOrderBook.attach, setLevel, levels_setLevels, levels_appendToLevel, hins]; simp)
    (by simp [PoolOrderBook.attach, setLevel])
    (fun j _ hj hjx => by
      rw [PoolOrderBook.attach, setLevel, node_congr (nodes_setLevels _)]
      exact hnode j (fun he => hj (by simp [he])) (hmid ▸ hjx))
    (by simpa [PoolOrderBook.attach, setLevel, LevelInv.setLevels] using hlev)
    (by
      rw [PoolOrderBook.attach, setLevel, freeHead_setLevels, freeHead_appendToLevel,
        next_setLevels, hnext]
      have hif : i ∉ b.freeSlots := fun hm => by
        have h1 := h.once_le .buy i
        have h2 := List.count_pos_iff.mpr hm
        simp only [List.count_cons_self] at h1
        omega
      split_ifs with ht
      · exact h.free.update_of_notMem hif
      · refine (h.free.update_of_notMem hif).update_of_notMem fun hm => ?_
        have h1 := h.once_le s l.tailIdx
        have h2 := List.count_pos_iff.mpr hm
        have h3 := hsub l.tailIdx
        have h4 := List.count_pos_iff.mpr (htail ht)
        omega)
    (fun j => by
      simp only [List.flatMap_cons, List.flatMap_nil, hmid, List.count_append, List.count_cons,
        List.count_nil]
      omega)
  exact ⟨h1, h2, by simpa using h3, h4⟩

/-- Erasing an empty level. -/
theorem eraseLevel (h : b.Shape held) (hc : (b.levels s).entries = pre ++ (p, l) :: post)
    (hl : b.levelSlots l = []) : (b.eraseLevel s p).Shape held ∧
    (b.eraseLevel s p).freeSlots = b.freeSlots ∧ (b.eraseLevel s p).queued s = b.queued s ∧
    (b.eraseLevel s p).queued s.opp = b.queued s.opp := by
  obtain ⟨h1, h2, h3, h4⟩ := h.reshape (b.eraseLevel s p) s pre [(p, l)] [] post b.levelSlots held
    b.freeSlots (by simp [PoolOrderBook.eraseLevel]) (by simp [hc])
    (by simp [PoolOrderBook.eraseLevel, SortedMap.entries_erase_of_cut hc])
    (by simp [PoolOrderBook.eraseLevel])
    (fun j _ _ _ => by rw [PoolOrderBook.eraseLevel, node_congr (nodes_setLevels _)])
    (by simp) (by simpa [PoolOrderBook.eraseLevel] using h.free) (fun j => by simp [hl])
  refine ⟨h1, h2, ?_, h4⟩
  rw [h3, queued, hc]
  simp [hl]

/-- The id index is no part of the shape. -/
theorem setIndex (h : b.Shape held) (m : SortedMap (fun a b : OrderId => a < b) UInt32) :
    ({ b with orderIndex := m } : PoolOrderBook).Shape held :=
  ⟨h.capacity, h.free, fun t e he => by
    obtain ⟨h1, h2, h3, h4⟩ := h.level t e (by cases t <;> exact he)
    exact ⟨h1, h2, h3, h4⟩, h.once⟩

/-- Rewriting a queued order in place, on the same side and at the same price. -/
theorem setOrder (h : b.Shape held) {o : Order} (hs : o.side = (b.order i).side)
    (hp : o.price = (b.order i).price) (hr : i.toNat < b.nodes.length) :
    (b.setOrder i o).Shape held ∧ (b.setOrder i o).freeSlots = b.freeSlots ∧
    ∀ t, (b.setOrder i o).queued t = b.queued t := by
  have hfs : (b.setOrder i o).freeSlots = b.freeSlots := by
    rw [freeSlots, next_setOrder]; simp [freeSlots, PoolOrderBook.setOrder]
  have hls := @levelSlots_setOrder b i o
  have hq : ∀ t, (b.setOrder i o).queued t = b.queued t := fun t => by
    rw [queued, hls, queued, PoolOrderBook.setOrder, levels_modifyNode]
  refine ⟨⟨by simpa [PoolOrderBook.setOrder] using h.capacity, ?_, fun t e he => ?_, fun j => ?_⟩,
    hfs, hq⟩
  · rw [hfs, next_setOrder]; exact h.free
  · rw [PoolOrderBook.setOrder, levels_modifyNode] at he
    obtain ⟨h1, h2, h3, h4⟩ := h.level t e he
    rw [hls]
    refine ⟨by rw [next_setOrder, prev_setOrder]; exact h1, h2, h3, fun j hj => ?_⟩
    rw [order_setOrder o hr]
    by_cases hji : j = i
    · subst hji
      rw [Function.update_self, hs, hp]; exact h4 j hj
    · rw [Function.update_of_ne hji]; exact h4 j hj
  · rw [hfs, hq, hq, h.once j]; simp [PoolOrderBook.setOrder]

end Shape

/-! ### Laying out the free list -/

theorem toNat_ofNat_of_lt {n : ℕ} (h : n < 2 ^ 32) : (UInt32.ofNat n).toNat = n := by
  simp only [UInt32.toNat_ofNat']
  exact Nat.mod_eq_of_lt h

/-- Slot numbers from `a` on, `n` of them. -/
def slotRange (a n : ℕ) : List UInt32 := (List.range' a n).map UInt32.ofNat

theorem count_slotRange {a n : ℕ} (h : a + n ≤ 2 ^ 32) (i : UInt32) :
    (slotRange a n).count i = if a ≤ i.toNat ∧ i.toNat < a + n then 1 else 0 := by
  have hnd : (slotRange a n).Nodup := by
    refine List.Nodup.map_on (fun x hx y hy hxy => ?_) List.nodup_range'
    have hx' := List.mem_range'_1.mp hx
    have hy' := List.mem_range'_1.mp hy
    rw [← toNat_ofNat_of_lt (show x < 2 ^ 32 by omega), hxy, toNat_ofNat_of_lt (by omega)]
  have hmem : i ∈ slotRange a n ↔ a ≤ i.toNat ∧ i.toNat < a + n := by
    rw [slotRange, List.mem_map]
    constructor
    · rintro ⟨k, hk, rfl⟩
      rw [List.mem_range'_1] at hk
      rwa [toNat_ofNat_of_lt (by omega)]
    · intro hi
      exact ⟨i.toNat, List.mem_range'_1.mpr hi, UInt32.toNat_inj.mp (toNat_ofNat_of_lt (by omega))⟩
  rw [hnd.count]
  simp only [hmem]

/-- Slots linked by `freeLink` form one chain. -/
theorem chain_freeLink (next : UInt32 → UInt32) (size : ℕ) : ∀ n a : ℕ, a + n = size →
    (∀ k, a ≤ k → k < size → next (UInt32.ofNat k) = freeLink size k) →
    Chain next (if a < size then UInt32.ofNat a else invalidIdx) (slotRange a n) invalidIdx
  | 0, a, ha, _ => by rw [if_neg (by omega)]; rfl
  | n + 1, a, ha, hk => by
    rw [if_pos (by omega), slotRange, List.range'_succ, List.map_cons]
    refine ⟨rfl, ?_⟩
    rw [hk a le_rfl (by omega)]
    exact chain_freeLink next size n (a + 1) (by omega) fun k h1 h2 => hk k (by omega) h2

namespace Shape

theorem freeHead_eq_invalid_iff (h : b.Shape held) : b.freeHead = invalidIdx ↔ b.freeSlots = [] := by
  rw [h.free.start]
  cases hf : b.freeSlots with
  | nil => simp
  | cons i fs =>
    have hr : i.toNat < b.nodes.length := h.range_of_mem (.inl (by simp [hf]))
    simpa using h.ne_invalid hr

/-- The size of the pool once it has grown. -/
def grownSize (n : ℕ) : ℕ := if n = 0 then 1024 else n * 2

theorem lt_grownSize (n : ℕ) : n < grownSize n := by
  rw [grownSize]
  split_ifs <;> omega

end Shape

/-- The pool with the free list laid out over new slots up to `newSize`. -/
def growTo (b : PoolOrderBook) (newSize : ℕ) : PoolOrderBook :=
  { b with
    nodes := b.nodes ++ (List.range' b.nodes.length (newSize - b.nodes.length)).map fun i =>
      { prevIdx := invalidIdx, nextIdx := freeLink newSize i }
    freeHead := UInt32.ofNat b.nodes.length }

theorem grow_eq : b.grow = b.growTo (Shape.grownSize b.nodes.length) := rfl

theorem length_growTo {n : ℕ} (h : b.nodes.length ≤ n) : (b.growTo n).nodes.length = n := by
  simp only [growTo, List.length_append, List.length_map, List.length_range']
  omega

theorem node_growTo (n : ℕ) (hr : i.toNat < b.nodes.length) : (b.growTo n).node i = b.node i := by
  simp only [node, growTo, List.getD_eq_getElem?_getD]
  rw [List.getElem?_append_left hr]

@[simp] theorem levels_growTo (n : ℕ) : (b.growTo n).levels s = b.levels s := by cases s <;> rfl

namespace Shape

theorem length_grow : b.grow.nodes.length = grownSize b.nodes.length := by
  rw [grow_eq, length_growTo (lt_grownSize _).le]

/-- Growing an exhausted pool puts the new slots on the free list. -/
theorem growTo {n : ℕ} (h : b.Shape held) (hf : b.freeSlots = []) (hlt : b.nodes.length < n)
    (hcap : n < 2 ^ 32) : (b.growTo n).Shape held ∧
    (b.growTo n).freeSlots = slotRange b.nodes.length (n - b.nodes.length) ∧
    ∀ t, (b.growTo n).queued t = b.queued t := by
  have hlen := length_growTo (b := b) hlt.le
  have hnode : ∀ i : UInt32, b.nodes.length ≤ i.toNat → i.toNat < n →
      (b.growTo n).node i = { nextIdx := freeLink n i.toNat } := by
    intro i h1 h2
    simp only [node, PoolOrderBook.growTo, List.getD_eq_getElem?_getD]
    rw [List.getElem?_append_right h1, List.getElem?_map, List.getElem?_range' (by omega)]
    simp [Nat.add_sub_cancel' h1]
  have hfree : Chain (b.growTo n).next (b.growTo n).freeHead
      (slotRange b.nodes.length (n - b.nodes.length)) invalidIdx := by
    have := chain_freeLink (b.growTo n).next n (n - b.nodes.length) b.nodes.length (by omega)
      fun k h1 h2 => by
        have hk := toNat_ofNat_of_lt (show k < 2 ^ 32 by omega)
        rw [next, hnode _ (by rw [hk]; exact h1) (by rw [hk]; exact h2), hk]
    rwa [if_pos hlt] at this
  have hcnt := count_slotRange (a := b.nodes.length) (n := n - b.nodes.length) (by omega)
  have hfs : (b.growTo n).freeSlots = slotRange b.nodes.length (n - b.nodes.length) := by
    have hn := nodup_of_count (slotRange b.nodes.length (n - b.nodes.length))
      (fun i => if i.toNat < b.nodes.length then 1 else 0) (b.growTo n).nodes.length fun i => by
        rw [hcnt, hlen]; split_ifs <;> omega
    exact freeSlots_eq hfree (by rwa [hlen]) hn.1 hn.2
  have hlv : ∀ t, ∀ e ∈ (b.levels t).entries,
      (b.growTo n).LevelInv t e.1 e.2 (b.levelSlots e.2) ∧
      (b.growTo n).levelSlots e.2 = b.levelSlots e.2 := by
    intro t e he
    have hr : ∀ i ∈ b.levelSlots e.2, i.toNat < b.nodes.length := fun i hi =>
      h.range_of_mem (.inr (.inr ⟨t, levelSlots_subset he hi⟩))
    have hl := (h.level t e he).congr fun i hi => node_growTo n (hr i hi)
    exact ⟨hl, hl.levelSlots_eq fun i hi => by have := hr i hi; omega⟩
  have hq : ∀ t, (b.growTo n).queued t = b.queued t := fun t => by
    rw [queued, levels_growTo, List.flatMap_congr fun e he => (hlv t e he).2, queued]
  refine ⟨⟨by rwa [hlen], hfs ▸ hfree, fun t e he => ?_, fun i => ?_⟩, hfs, hq⟩
  · rw [levels_growTo] at he
    rw [(hlv t e he).2]; exact (hlv t e he).1
  · have := h.once i
    rw [hf, List.count_nil] at this
    rw [hfs, hq, hq, hcnt, hlen]
    split_ifs at this ⊢ <;> omega

end Shape

/-- Pop the head of the free list and store `o` in it. -/
def pop (b : PoolOrderBook) (o : Order) : PoolOrderBook :=
  { b with freeHead := b.next b.freeHead }.modifyNode b.freeHead fun _ =>
    { order := o, prevIdx := invalidIdx, nextIdx := invalidIdx }

theorem allocateNode_eq (o : Order) : b.allocateNode o =
    ((if b.freeHead = invalidIdx then b.grow else b).freeHead,
      (if b.freeHead = invalidIdx then b.grow else b).pop o) := rfl

theorem node_pop_of_ne {o : Order} (hj : j ≠ b.freeHead) : (b.pop o).node j = b.node j :=
  node_modifyNode_of_ne _ hj

namespace Shape

/-- Taking the head of a nonempty free list detaches it. -/
theorem pop {o : Order} {fs : List UInt32} (h : b.Shape held) (hf : b.freeSlots = i :: fs) :
    b.freeHead = i ∧ (b.pop o).Shape (i :: held) ∧ (b.pop o).freeSlots = fs ∧
    (b.pop o).order i = o ∧ ∀ t, (b.pop o).queued t = b.queued t := by
  have hchain := h.free
  rw [hf] at hchain
  have hi : b.freeHead = i := hchain.1
  have hr : i.toNat < b.nodes.length := h.range_of_mem (.inl (by simp [hf]))
  have hifs : i ∉ fs := fun hm => by
    have h1 := h.once_le .buy i
    have h2 := List.count_pos_iff.mpr hm
    simp only [hf, List.count_cons_self] at h1
    omega
  obtain ⟨h1, h2, h3, h4⟩ := h.reshape (b.pop o) .buy [] [] [] (b.levels .buy).entries
    b.levelSlots (i :: held) fs (by simp [PoolOrderBook.pop]) rfl rfl rfl
    (fun j hj _ _ => node_pop_of_ne fun he => hj (by simp [hf, he, hi]))
    (by simp)
    (by
      have hne : ∀ x ∈ fs, x ≠ b.freeHead := fun x hx he => hifs (hi ▸ he ▸ hx)
      show Chain (b.pop o).next (b.next b.freeHead) fs invalidIdx
      rw [hi]
      exact hchain.2.congr fun x hx => by rw [next, node_pop_of_ne (hne x hx), next])
    (fun j => by
      simp only [hf, List.count_cons, List.flatMap_nil, List.count_nil]
      omega)
  refine ⟨hi, h1, h2, ?_, fun t => ?_⟩
  · rw [order, PoolOrderBook.pop, hi]
    exact congrArg OrderNode.order (node_modifyNode_self _ hr)
  · cases t with
    | buy => simpa [queued] using h3
    | sell => exact h4

/-- Allocation detaches a slot that was free, growing the pool only if no slot was. -/
theorem allocateNode {o : Order} (h : b.Shape held)
    (hcap : (b.allocateNode o).2.nodes.length < 2 ^ 32) :
    (b.allocateNode o).2.Shape ((b.allocateNode o).1 :: held) ∧
    (b.allocateNode o).2.order (b.allocateNode o).1 = o ∧
    (∀ t, (b.allocateNode o).2.queued t = b.queued t) ∧
    (∀ t, ∀ j ∈ b.queued t, (b.allocateNode o).2.order j = b.order j) ∧
    (if b.freeSlots = [] then (b.allocateNode o).2.nodes.length = grownSize b.nodes.length
      else b.freeSlots = (b.allocateNode o).1 :: (b.allocateNode o).2.freeSlots ∧
        (b.allocateNode o).2.nodes.length = b.nodes.length) := by
  have hkeep : ∀ {b₀ : PoolOrderBook}, (b₀.pop o).Shape (b₀.freeHead :: held) →
      (∀ t, (b₀.pop o).queued t = b.queued t) → ∀ t, ∀ j ∈ b.queued t, j ≠ b₀.freeHead := by
    rintro b₀ hs hq t j hj rfl
    have h1 := hs.once_le t b₀.freeHead
    have h2 := List.count_pos_iff.mpr ((hq t).symm ▸ hj : b₀.freeHead ∈ (b₀.pop o).queued t)
    simp only [List.count_cons_self] at h1
    omega
  rw [allocateNode_eq] at hcap ⊢
  by_cases hf : b.freeSlots = []
  · rw [if_pos (h.freeHead_eq_invalid_iff.mpr hf)] at hcap ⊢
    have hcap' : b.grow.nodes.length < 2 ^ 32 := by simpa [PoolOrderBook.pop] using hcap
    obtain ⟨hg, hgf, hgq⟩ := h.growTo hf (lt_grownSize _) (length_grow (b := b) ▸ hcap')
    rw [← grow_eq] at hg hgf hgq
    have hpos : 0 < grownSize b.nodes.length - b.nodes.length := by
      have := lt_grownSize b.nodes.length
      omega
    obtain ⟨i, fs, hfs⟩ : ∃ i fs, b.grow.freeSlots = i :: fs := by
      rw [hgf, slotRange]
      exact ⟨_, _, by rw [← Nat.succ_pred_eq_of_pos hpos, List.range'_succ, List.map_cons]⟩
    obtain ⟨hi, hs, _, ho, hq⟩ := hg.pop (o := o) hfs
    rw [← hi] at hs ho
    have hq' : ∀ t, (b.grow.pop o).queued t = b.queued t := fun t => (hq t).trans (hgq t)
    refine ⟨hs, ho, hq', fun t j hj => ?_, ?_⟩
    · have hr := h.range_of_mem (.inr (.inr ⟨t, hj⟩))
      rw [order, node_pop_of_ne (hkeep hs hq' t j hj), grow_eq, node_growTo _ hr, order]
    · rw [if_pos hf, ← length_grow]; simp [PoolOrderBook.pop]
  · rw [if_neg (mt h.freeHead_eq_invalid_iff.mp hf)]
    obtain ⟨i, fs, hfs⟩ := List.exists_cons_of_ne_nil hf
    obtain ⟨hi, hs, hfs', ho, hq⟩ := h.pop (o := o) hfs
    rw [← hi] at hs ho
    refine ⟨hs, ho, hq, fun t j hj => ?_, ?_⟩
    · rw [order, node_pop_of_ne (hkeep hs hq t j hj), order]
    · rw [if_neg hf, hfs, hfs', hi]; simp [PoolOrderBook.pop]

end Shape

/-! ### Initial and cleared pools -/

/-- A pool without levels whose slots are linked by `freeLink` is all free. -/
theorem shape_of_laid_out (hcap : b.nodes.length < 2 ^ 32)
    (hhead : b.freeHead = if b.nodes.length > 0 then 0 else invalidIdx)
    (hlink : ∀ k < b.nodes.length, b.next (UInt32.ofNat k) = freeLink b.nodes.length k)
    (hlv : ∀ t, (b.levels t).entries = []) :
    b.Shape [] ∧ b.freeSlots = slotRange 0 b.nodes.length ∧ ∀ t, b.queued t = [] := by
  have hfree : Chain b.next b.freeHead (slotRange 0 b.nodes.length) invalidIdx := by
    rw [hhead]
    exact chain_freeLink b.next b.nodes.length b.nodes.length 0 (by omega) fun k _ hk => hlink k hk
  have hcnt := count_slotRange (a := 0) (n := b.nodes.length) (by omega)
  have hfs : b.freeSlots = slotRange 0 b.nodes.length := by
    have hn := nodup_of_count (slotRange 0 b.nodes.length) (fun _ => 0) b.nodes.length
      fun i => by rw [hcnt]; simp
    exact freeSlots_eq hfree hcap hn.1 hn.2
  have hq : ∀ t, b.queued t = [] := fun t => by rw [queued, hlv]; rfl
  refine ⟨⟨hcap, hfs ▸ hfree, fun t e he => ?_, fun i => ?_⟩, hfs, hq⟩
  · rw [hlv] at he; cases he
  · rw [hfs, hq, hq, hcnt]; simp

theorem shape_ctor {n : ℕ} (h : n < 2 ^ 32) : (ctor n).Shape [] ∧
    (ctor n).freeSlots = slotRange 0 n ∧ ∀ t, (ctor n).queued t = [] := by
  have hlen : (ctor n).nodes.length = n := by simp [ctor]
  have := @shape_of_laid_out (ctor n) (by rwa [hlen]) (by rw [hlen]; rfl)
    (fun k hk => by
      rw [hlen] at hk ⊢
      simp [next, node, ctor, toNat_ofNat_of_lt (show k < 2 ^ 32 by omega), hk])
    (fun t => by cases t <;> rfl)
  rwa [hlen] at this

theorem shape_clear (h : b.nodes.length < 2 ^ 32) : b.clear.Shape [] ∧
    b.clear.freeSlots = slotRange 0 b.nodes.length ∧ ∀ t, b.clear.queued t = [] := by
  have hlen : b.clear.nodes.length = b.nodes.length := by simp [clear]
  have := @shape_of_laid_out b.clear (by rwa [hlen]) (by rw [hlen]; rfl)
    (fun k hk => by
      rw [hlen] at hk ⊢
      simp [next, node, clear, toNat_ofNat_of_lt (show k < 2 ^ 32 by omega), hk])
    (fun t => by cases t <;> rfl)
  rwa [hlen] at this

end PoolOrderBook

end Titan
