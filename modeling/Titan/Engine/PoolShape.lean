import Titan.Engine.Pool

/-! Where every slot of the pool is.

    `Shape b held` is the ownership discipline of the pool: each slot is on the free list, in the
    queue of exactly one price level, or detached (`held`) in the middle of an operation, and each
    list is linked as it should be. Every pointer operation moves slots between these places;
    `Shape.reshape` is the frame rule behind all of them: levels whose slots an operation does not
    write keep their queues. -/

namespace Titan
open Schemes
open Function (update)

namespace PoolOrderBook
variable {b b' : PoolOrderBook} {i j v : UInt32} {s : Side}

/-! ### Reading after writing -/

theorem node_modifyNode (f : OrderNode → OrderNode) : (b.modifyNode i f).node j =
    if j = i ∧ i.toNat < b.nodes.length then f (b.node i) else b.node j := by
  simp only [node, modifyNode, List.getD_eq_getElem?_getD, List.getElem?_modify]
  by_cases hji : j = i
  · subst hji
    by_cases hr : j.toNat < b.nodes.length
    · simp [hr]
    · simp [hr]
  · have hne : i.toNat ≠ j.toNat := fun h => hji (UInt32.toNat_inj.mp h.symm)
    simp [hji, hne]

theorem node_modifyNode_self (f : OrderNode → OrderNode) (h : i.toNat < b.nodes.length) :
    (b.modifyNode i f).node i = f (b.node i) := by rw [node_modifyNode, if_pos ⟨rfl, h⟩]

theorem node_modifyNode_of_ne (f : OrderNode → OrderNode) (h : j ≠ i) :
    (b.modifyNode i f).node j = b.node j := by rw [node_modifyNode, if_neg fun hh => h hh.1]

@[simp] theorem length_modifyNode (f : OrderNode → OrderNode) :
    (b.modifyNode i f).nodes.length = b.nodes.length := List.length_modify ..

@[simp] theorem levels_modifyNode (f : OrderNode → OrderNode) :
    (b.modifyNode i f).levels s = b.levels s := by cases s <;> rfl

@[simp] theorem next_setNext (h : i.toNat < b.nodes.length) :
    (b.setNext i v).next = update b.next i v := by
  funext j
  by_cases hj : j = i
  · subst hj; rw [next, setNext, node_modifyNode_self _ h, Function.update_self]
  · rw [next, setNext, node_modifyNode_of_ne _ hj, Function.update_of_ne hj, next]

@[simp] theorem prev_setPrev (h : i.toNat < b.nodes.length) :
    (b.setPrev i v).prev = update b.prev i v := by
  funext j
  by_cases hj : j = i
  · subst hj; rw [prev, setPrev, node_modifyNode_self _ h, Function.update_self]
  · rw [prev, setPrev, node_modifyNode_of_ne _ hj, Function.update_of_ne hj, prev]

@[simp] theorem order_setOrder (o : Order) (h : i.toNat < b.nodes.length) :
    (b.setOrder i o).order = update b.order i o := by
  funext j
  by_cases hj : j = i
  · subst hj; rw [order, setOrder, node_modifyNode_self _ h, Function.update_self]
  · rw [order, setOrder, node_modifyNode_of_ne _ hj, Function.update_of_ne hj, order]

/-- A write that keeps field `g` of a slot keeps `g` of every slot. -/
theorem field_modifyNode {α : Type} (g : OrderNode → α) (f : OrderNode → OrderNode)
    (hg : ∀ nd, g (f nd) = g nd) : g ((b.modifyNode i f).node j) = g (b.node j) := by
  rw [node_modifyNode]
  split_ifs with h
  · rw [hg, h.1]
  · rfl

@[simp] theorem prev_setNext : (b.setNext i v).prev = b.prev :=
  funext fun _ => field_modifyNode (·.prevIdx) _ fun _ => rfl

@[simp] theorem order_setNext : (b.setNext i v).order = b.order :=
  funext fun _ => field_modifyNode (·.order) _ fun _ => rfl

@[simp] theorem next_setPrev : (b.setPrev i v).next = b.next :=
  funext fun _ => field_modifyNode (·.nextIdx) _ fun _ => rfl

@[simp] theorem order_setPrev : (b.setPrev i v).order = b.order :=
  funext fun _ => field_modifyNode (·.order) _ fun _ => rfl

@[simp] theorem next_setOrder (o : Order) : (b.setOrder i o).next = b.next :=
  funext fun _ => field_modifyNode (·.nextIdx) _ fun _ => rfl

@[simp] theorem prev_setOrder (o : Order) : (b.setOrder i o).prev = b.prev :=
  funext fun _ => field_modifyNode (·.prevIdx) _ fun _ => rfl

@[simp] theorem levels_setLevels (m : SortedMap (better s) PriceLevel) :
    (b.setLevels s m).levels s = m := by cases s <;> rfl

@[simp] theorem levels_setLevels_opp (m : SortedMap (better s) PriceLevel) :
    (b.setLevels s m).levels s.opp = b.levels s.opp := by cases s <;> rfl

@[simp] theorem levels_setLevels_of_opp (m : SortedMap (better s.opp) PriceLevel) :
    (b.setLevels s.opp m).levels s = b.levels s := by cases s <;> rfl

@[simp] theorem nodes_setLevels (m : SortedMap (better s) PriceLevel) :
    (b.setLevels s m).nodes = b.nodes := by cases s <;> rfl

@[simp] theorem freeHead_setLevels (m : SortedMap (better s) PriceLevel) :
    (b.setLevels s m).freeHead = b.freeHead := by cases s <;> rfl

@[simp] theorem orderIndex_setLevels (m : SortedMap (better s) PriceLevel) :
    (b.setLevels s m).orderIndex = b.orderIndex := by cases s <;> rfl

theorem node_congr (h : b'.nodes = b.nodes) : b'.node = b.node := by
  funext i; rw [node, node, h]

/-! ### The lists that the links spell out -/

/-- The free list, next slot to be handed out first. -/
def freeSlots (b : PoolOrderBook) : List UInt32 := walk invalidIdx b.next b.nodes.length b.freeHead

/-- The slots of a level, head to tail. -/
def levelSlots (b : PoolOrderBook) (l : PriceLevel) : List UInt32 :=
  walk invalidIdx b.next b.nodes.length l.headIdx

/-- The slots queued on a side, level by level from the best price. -/
def queued (b : PoolOrderBook) (s : Side) : List UInt32 :=
  (b.levels s).entries.flatMap fun e => b.levelSlots e.2

/-- Level `l` of side `s`, stored under `p`, is the queue `xs`. -/
structure LevelInv (b : PoolOrderBook) (s : Side) (p : Price) (l : PriceLevel)
    (xs : List UInt32) : Prop where
  links : DQueue invalidIdx b.next b.prev l.headIdx l.tailIdx xs
  count : l.orderCount.toNat = xs.length
  price : l.price = p
  orders : ∀ i ∈ xs, (b.order i).side = s ∧ (b.order i).price = p

/-- Every slot is in exactly one place, and every place is linked up. -/
structure Shape (b : PoolOrderBook) (held : List UInt32) : Prop where
  capacity : b.nodes.length < 2 ^ 32
  free : Chain b.next b.freeHead b.freeSlots invalidIdx
  level : ∀ s, ∀ e ∈ (b.levels s).entries, b.LevelInv s e.1 e.2 (b.levelSlots e.2)
  once : ∀ i, b.freeSlots.count i + held.count i + (b.queued .buy).count i +
    (b.queued .sell).count i = if i.toNat < b.nodes.length then 1 else 0

theorem LevelInv.congr {p : Price} {l : PriceLevel} {xs : List UInt32}
    (h : ∀ i ∈ xs, b'.node i = b.node i) (hl : b.LevelInv s p l xs) : b'.LevelInv s p l xs where
  links := hl.links.congr (fun x hx => by rw [next, h x hx, next])
    fun x hx => by rw [prev, h x hx, prev]
  count := hl.count
  price := hl.price
  orders i hi := by rw [order, h i hi]; exact hl.orders i hi

/-- Distinct slot numbers below `n` are at most `n` many. -/
theorem length_le_of_nodup {xs : List UInt32} {n : ℕ} (h : xs.Nodup) (hn : ∀ i ∈ xs, i.toNat < n) :
    xs.length ≤ n := by
  have hm : (xs.map UInt32.toNat).Nodup := h.map fun _ _ => UInt32.toNat_inj.mp
  have hsub : (xs.map UInt32.toNat).toFinset ⊆ Finset.range n := fun x hx => by
    obtain ⟨i, hi, rfl⟩ : ∃ i ∈ xs, i.toNat = x := by simpa using hx
    exact Finset.mem_range.mpr (hn i hi)
  calc xs.length = (xs.map UInt32.toNat).toFinset.card := by
        rw [List.toFinset_card_of_nodup hm, List.length_map]
    _ ≤ n := by simpa using Finset.card_le_card hsub

theorem invalidIdx_notMem {xs : List UInt32} {n : ℕ} (hn : n < 2 ^ 32)
    (h : ∀ i ∈ xs, i.toNat < n) : invalidIdx ∉ xs := fun hm => by
  have h1 := h _ hm
  have h2 : invalidIdx.toNat = 2 ^ 32 - 1 := rfl
  omega

theorem LevelInv.levelSlots_eq {p : Price} {l : PriceLevel} {xs : List UInt32}
    (h : b.LevelInv s p l xs) (hr : ∀ i ∈ xs, i.toNat < b.nodes.length) : b.levelSlots l = xs :=
  walk_of_chain h.links.fwd h.links.proper (length_le_of_nodup h.links.nodup hr)

theorem freeSlots_eq {fs : List UInt32} (h : Chain b.next b.freeHead fs invalidIdx)
    (hcap : b.nodes.length < 2 ^ 32) (hnd : fs.Nodup) (hr : ∀ i ∈ fs, i.toNat < b.nodes.length) :
    b.freeSlots = fs :=
  walk_of_chain h (invalidIdx_notMem hcap hr) (length_le_of_nodup hnd hr)

namespace Shape
variable {held held' : List UInt32}

/-- `once`, from the point of view of either side. -/
theorem once_side (h : b.Shape held) (s : Side) (i : UInt32) : b.freeSlots.count i +
    held.count i + (b.queued s).count i + (b.queued s.opp).count i =
    if i.toNat < b.nodes.length then 1 else 0 := by
  have := h.once i
  cases s with
  | buy => exact this
  | sell => simp only [Side.opp]; omega

/-- No slot is in two places. -/
theorem once_le (h : b.Shape held) (s : Side) (i : UInt32) : b.freeSlots.count i +
    held.count i + (b.queued s).count i + (b.queued s.opp).count i ≤ 1 := by
  rw [h.once_side s i]
  split_ifs <;> omega

theorem range_of_mem (h : b.Shape held) (hi : i ∈ b.freeSlots ∨ i ∈ held ∨ ∃ s, i ∈ b.queued s) :
    i.toNat < b.nodes.length := by
  by_contra hr
  have ho := h.once i
  rw [if_neg hr] at ho
  have hz : ∀ xs : List UInt32, xs.count i = 0 → i ∉ xs := fun _ => List.count_eq_zero.mp
  rcases hi with hi | hi | ⟨s, hi⟩
  · exact hz _ (by omega) hi
  · exact hz _ (by omega) hi
  · cases s with
    | buy => exact hz _ (by omega) hi
    | sell => exact hz _ (by omega) hi

theorem levelSlots_subset {e : Price × PriceLevel} (he : e ∈ (b.levels s).entries)
    (hi : i ∈ b.levelSlots e.2) : i ∈ b.queued s := List.mem_flatMap.mpr ⟨e, he, hi⟩

end Shape

/-- Lists that together hold each slot at most once have no repetition and only slots. -/
theorem nodup_of_count (xs : List UInt32) (rest : UInt32 → ℕ) (n : ℕ)
    (h : ∀ i : UInt32, xs.count i + rest i = if i.toNat < n then 1 else 0) :
    xs.Nodup ∧ ∀ i ∈ xs, i.toNat < n := by
  refine ⟨List.nodup_iff_count_le_one.mpr fun i => ?_, fun i hi => ?_⟩
  · have := h i
    split_ifs at this <;> omega
  · by_contra hn
    have := h i
    have hp := List.count_pos_iff.mpr hi
    rw [if_neg hn] at this
    omega

/-- Frame rule. An operation that rewrites only slots of the free list, held slots and the levels
    `mid` of side `s`, and accounts for exactly those slots afterwards, keeps the shape. -/
theorem Shape.reshape {held : List UInt32} (h : b.Shape held) (b' : PoolOrderBook) (s : Side)
    (pre mid mid' post : List (Price × PriceLevel)) (ys : PriceLevel → List UInt32)
    (held' fs : List UInt32)
    (hlen : b'.nodes.length = b.nodes.length)
    (hs : (b.levels s).entries = pre ++ mid ++ post)
    (hs' : (b'.levels s).entries = pre ++ mid' ++ post)
    (ho : b'.levels s.opp = b.levels s.opp)
    (hframe : ∀ i, i ∉ b.freeSlots → i ∉ held → i ∉ mid.flatMap (fun e => b.levelSlots e.2) →
      b'.node i = b.node i)
    (hmid : ∀ e ∈ mid', b'.LevelInv s e.1 e.2 (ys e.2))
    (hfree : Chain b'.next b'.freeHead fs invalidIdx)
    (hcount : ∀ i, fs.count i + held'.count i + (mid'.flatMap fun e => ys e.2).count i =
      b.freeSlots.count i + held.count i + (mid.flatMap fun e => b.levelSlots e.2).count i) :
    b'.Shape held' ∧ b'.freeSlots = fs ∧
      b'.queued s = pre.flatMap (fun e => b.levelSlots e.2) ++ mid'.flatMap (fun e => ys e.2) ++
        post.flatMap (fun e => b.levelSlots e.2) ∧
      b'.queued s.opp = b.queued s.opp := by
  have hq : b.queued s = pre.flatMap (fun e => b.levelSlots e.2) ++
      mid.flatMap (fun e => b.levelSlots e.2) ++ post.flatMap (fun e => b.levelSlots e.2) := by
    rw [queued, hs, List.flatMap_append, List.flatMap_append]
  have honce := h.once_side s
  simp only [hq, List.count_append] at honce
  -- slots of the other levels are written by nobody
  have hkeep : ∀ xs : List (Price × PriceLevel),
      (∀ i, (xs.flatMap fun e => b.levelSlots e.2).count i ≤
        (pre.flatMap fun e => b.levelSlots e.2).count i +
        (post.flatMap fun e => b.levelSlots e.2).count i + (b.queued s.opp).count i) →
      ∀ e ∈ xs, ∀ i ∈ b.levelSlots e.2, b'.node i = b.node i := by
    intro xs hx e he i hi
    have hmem : i ∈ xs.flatMap fun e => b.levelSlots e.2 := List.mem_flatMap.mpr ⟨e, he, hi⟩
    have hpos := List.count_pos_iff.mpr hmem
    have hxi := hx i
    have hoi := honce i
    refine hframe i ?_ ?_ ?_ <;> refine List.count_eq_zero.mp ?_ <;> split_ifs at hoi <;> omega
  have hpre := hkeep pre fun i => by omega
  have hpost := hkeep post fun i => by omega
  have hopp := hkeep (b.levels s.opp).entries fun i => by rw [queued]; omega
  -- the places of all slots afterwards
  have hacc : ∀ i, fs.count i + held'.count i + (mid'.flatMap fun e => ys e.2).count i +
      (pre.flatMap fun e => b.levelSlots e.2).count i +
      (post.flatMap fun e => b.levelSlots e.2).count i + (b.queued s.opp).count i =
      if i.toNat < b'.nodes.length then 1 else 0 := fun i => by
    have h1 := honce i
    have h2 := hcount i
    rw [hlen]; omega
  have hslots' : ∀ e ∈ mid', b'.levelSlots e.2 = ys e.2 := fun e he => by
    refine (hmid e he).levelSlots_eq fun i hi => ?_
    by_contra hr
    have hmem : i ∈ mid'.flatMap fun e => ys e.2 := List.mem_flatMap.mpr ⟨e, he, hi⟩
    have hpos := List.count_pos_iff.mpr hmem
    have := hacc i
    rw [if_neg hr] at this
    omega
  have hsame : ∀ e : Price × PriceLevel, ∀ t : Side, e ∈ (b.levels t).entries →
      (∀ i ∈ b.levelSlots e.2, b'.node i = b.node i) →
      b'.LevelInv t e.1 e.2 (b.levelSlots e.2) ∧ b'.levelSlots e.2 = b.levelSlots e.2 := by
    intro e t he hnode
    have hl := (h.level t e he).congr hnode
    exact ⟨hl, hl.levelSlots_eq fun i hi =>
      hlen ▸ h.range_of_mem (.inr (.inr ⟨t, levelSlots_subset he hi⟩))⟩
  have hin : ∀ e, e ∈ pre ∨ e ∈ post → e ∈ (b.levels s).entries := fun e he => by
    rw [hs]; simp only [List.mem_append]; tauto
  have hspre := fun e he => hsame e s (hin e (.inl he)) (hpre e he)
  have hspost := fun e he => hsame e s (hin e (.inr he)) (hpost e he)
  have hsopp := fun e he => hsame e s.opp he (hopp e he)
  have hfs : b'.freeSlots = fs := by
    have hn := nodup_of_count fs (fun i => held'.count i +
      (mid'.flatMap fun e => ys e.2).count i + (pre.flatMap fun e => b.levelSlots e.2).count i +
      (post.flatMap fun e => b.levelSlots e.2).count i + (b.queued s.opp).count i) b'.nodes.length
      fun i => by have := hacc i; omega
    exact freeSlots_eq hfree (hlen ▸ h.capacity) hn.1 hn.2
  have hqs : b'.queued s = pre.flatMap (fun e => b.levelSlots e.2) ++
      mid'.flatMap (fun e => ys e.2) ++ post.flatMap (fun e => b.levelSlots e.2) := by
    rw [queued, hs', List.flatMap_append, List.flatMap_append,
      List.flatMap_congr fun e he => (hspre e he).2, List.flatMap_congr hslots',
      List.flatMap_congr fun e he => (hspost e he).2]
  have hqo : b'.queued s.opp = b.queued s.opp := by
    rw [queued, ho, List.flatMap_congr fun e he => (hsopp e he).2, queued]
  refine ⟨⟨hlen ▸ h.capacity, hfs ▸ hfree, fun t e he => ?_, fun i => ?_⟩, hfs, hqs, hqo⟩
  · rcases s.eq_or_eq_opp t with rfl | rfl
    · rw [hs', List.mem_append, List.mem_append] at he
      rcases he with (he | he) | he
      · rw [(hspre e he).2]; exact (hspre e he).1
      · rw [hslots' e he]; exact hmid e he
      · rw [(hspost e he).2]; exact (hspost e he).1
    · rw [ho] at he
      rw [(hsopp e he).2]; exact (hsopp e he).1
  · have hswap : (b'.queued .buy).count i + (b'.queued .sell).count i =
        (b'.queued s).count i + (b'.queued s.opp).count i := by
      cases s with
      | buy => rfl
      | sell => exact Nat.add_comm ..
    have := hacc i
    rw [hfs, Nat.add_assoc, hswap, hqs, hqo]
    simp only [List.count_append]
    omega

end PoolOrderBook

end Titan
