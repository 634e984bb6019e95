import Titan.Engine.PoolOps
import Titan.Engine.Book

/-! The match loops of the pool fill greedily.

    A step lemma for each loop says what one pass does to the resting orders; the run lemmas follow
    with the measure that makes the loops stop. What is carried through a run is `outcome`: the
    trades so far and the greedy fill of what is still open never change together. -/

namespace Titan
open Schemes
open Function (update)

namespace PoolOrderBook
variable {b b' : PoolOrderBook} {s a : Side} {p : Price} {i x : UInt32}

/-! ### The book behind the pool -/

/-- The resting orders of a side, level by level from the best price, head to tail. -/
def resting (b : PoolOrderBook) (s : Side) : List Order := (b.queued s).map b.order

/-- The book that a pool stands for. -/
def book (b : PoolOrderBook) : Book := b.resting

/-- The slots of all resting orders. -/
def live (b : PoolOrderBook) : List UInt32 := b.queued .buy ++ b.queued .sell

/-- The id index holds exactly the resting orders, each under its id with its slot. -/
def Indexed (b : PoolOrderBook) : Prop :=
  b.orderIndex.entries.Perm (b.live.map fun i => ((b.order i).orderId, i))

def NoEmptyLevel (b : PoolOrderBook) : Prop :=
  ∀ s, ∀ e ∈ (b.levels s).entries, e.2.headIdx ≠ invalidIdx

theorem live_perm (b : PoolOrderBook) (s : Side) : b.live.Perm (b.queued s ++ b.queued s.opp) := by
  cases s with
  | buy => exact .refl _
  | sell => exact List.perm_append_comm

theorem mem_live (b : PoolOrderBook) (s : Side) :
    i ∈ b.live ↔ i ∈ b.queued s ∨ i ∈ b.queued s.opp := by
  rw [(b.live_perm s).mem_iff, List.mem_append]

theorem exists_queued (b : PoolOrderBook) (hi : i ∈ b.live) : ∃ s, i ∈ b.queued s := by
  rcases (b.mem_live .buy).mp hi with hi | hi
  · exact ⟨_, hi⟩
  · exact ⟨_, hi⟩

theorem Shape.live_nodup {held : List UInt32} (h : b.Shape held) : b.live.Nodup := by
  refine List.nodup_iff_count_le_one.mpr fun i => ?_
  have := h.once_le .buy i
  simp only [live, List.count_append, Side.opp] at this ⊢
  omega

/-- The slot in front of a side is queued nowhere else. -/
theorem Shape.head_notMem {held ys : List UInt32} (h : b.Shape held) (hq : b.queued s = x :: ys) :
    x ∉ ys ∧ x ∉ b.queued s.opp := by
  have := h.once_le s x
  rw [hq, List.count_cons_self] at this
  exact ⟨fun hm => by have := List.count_pos_iff.mpr hm; omega,
    fun hm => by have := List.count_pos_iff.mpr hm; omega⟩

theorem map_order_congr {xs : List UInt32} (h : ∀ j ∈ xs, b'.order j = b.order j) :
    xs.map b'.order = xs.map b.order := List.map_congr_left h

namespace Indexed

theorem find (h : b.Indexed) (id : OrderId) (i : UInt32) :
    b.orderIndex.find? id = some i ↔ i ∈ b.live ∧ (b.order i).orderId = id := by
  rw [SortedMap.find?_iff_of_perm h, List.mem_map]
  constructor
  · rintro ⟨j, hj, hji⟩
    cases hji
    exact ⟨hj, rfl⟩
  · rintro ⟨hi, rfl⟩
    exact ⟨i, hi, rfl⟩

theorem size (h : b.Indexed) : b.orderIndex.size = b.live.length := by
  rw [SortedMap.size, List.Perm.length_eq h, List.length_map]

/-- Two resting orders with one id are one order. -/
theorem eq_of_id (h : b.Indexed) (hi : i ∈ b.live) (hx : x ∈ b.live)
    (hid : (b.order i).orderId = (b.order x).orderId) : i = x := by
  have h1 := (h.find _ i).mpr ⟨hi, rfl⟩
  have h2 := (h.find _ x).mpr ⟨hx, rfl⟩
  rw [hid, h2] at h1
  exact (Option.some.inj h1).symm

theorem congr (hid : ∀ j ∈ b'.live, (b'.order j).orderId = (b.order j).orderId) :
    (b'.live.map fun i => ((b'.order i).orderId, i)) =
      b'.live.map fun i => ((b.order i).orderId, i) :=
  List.map_congr_left fun j hj => by rw [hid j hj]

/-- Nothing but the order of slot `x` leaves the book and the index. -/
theorem remove (h : b.Indexed) (hp : b.live.Perm (x :: b'.live))
    (hid : ∀ j ∈ b'.live, (b'.order j).orderId = (b.order j).orderId)
    (hidx : b'.orderIndex = b.orderIndex.erase (b.order x).orderId) : b'.Indexed := by
  rw [Indexed, hidx, congr hid]
  exact SortedMap.perm_erase (List.Perm.trans h (hp.map _))

/-- A new order enters the book and the index. -/
theorem insert (h : b.Indexed) (hp : b'.live.Perm (x :: b.live))
    (hid : ∀ j ∈ b.live, (b'.order j).orderId = (b.order j).orderId)
    (hnew : b.orderIndex.find? (b'.order x).orderId = none)
    (hidx : b'.orderIndex = b.orderIndex.insert (b'.order x).orderId x) : b'.Indexed := by
  rw [Indexed, hidx]
  refine (SortedMap.perm_insert h hnew x).trans (.trans (.of_eq ?_) (hp.map _).symm)
  rw [List.map_cons]
  exact congrArg _ (List.map_congr_left fun j hj => by rw [hid j hj])

/-- Nothing enters or leaves. -/
theorem keep (h : b.Indexed) (hl : b'.live = b.live)
    (hid : ∀ j ∈ b.live, (b'.order j).orderId = (b.order j).orderId)
    (hidx : b'.orderIndex = b.orderIndex) : b'.Indexed := by
  rw [Indexed, hidx, congr fun j hj => hid j (hl ▸ hj), hl]
  exact h

end Indexed

/-! ### One pass of the inner loop -/

/-- What the rest of a matching call will have produced. -/
def outcome (a : Side) (m : Matching PoolOrderBook) : List Trade × Quantity × List Order :=
  let f := fill m.incoming m.incoming.remainingQuantity (m.book.resting a.opp)
  (m.outTrades ++ f.trades, f.left, f.rest)

/-- Book and incoming order in the middle of a matching call that began with `m₀`. -/
structure Run (a : Side) (m₀ m : Matching PoolOrderBook) : Prop where
  shape : m.book.Shape []
  indexed : m.book.Indexed
  incoming : m.incoming =
    { m₀.incoming with remainingQuantity := m.incoming.remainingQuantity }
  ownLevels : m.book.levels a = m₀.book.levels a
  ownResting : m.book.resting a = m₀.book.resting a
  capacity : m.book.nodes.length = m₀.book.nodes.length
  outcome : outcome a m = outcome a m₀
  /-- Makers leave from the front; only remaining quantities change behind it. -/
  suffix : (m.book.resting a.opp).map Order.core <:+ (m₀.book.resting a.opp).map Order.core

theorem Run.refl {m : Matching PoolOrderBook} (hs : m.book.Shape []) (hi : m.book.Indexed) :
    Run a m m := ⟨hs, hi, rfl, rfl, rfl, rfl, rfl, List.suffix_refl _⟩

theorem Run.trans {m₀ m₁ m₂ : Matching PoolOrderBook} (h : Run a m₀ m₁) (h' : Run a m₁ m₂) :
    Run a m₀ m₂ where
  shape := h'.shape
  indexed := h'.indexed
  incoming := by rw [h'.incoming, h.incoming]
  ownLevels := h'.ownLevels.trans h.ownLevels
  ownResting := h'.ownResting.trans h.ownResting
  capacity := h'.capacity.trans h.capacity
  outcome := h'.outcome.trans h.outcome
  suffix := h'.suffix.trans h.suffix

/-- The book after the maker in slot `x`, first of the level under `p`, is filled. -/
def fillMaker (b : PoolOrderBook) (s : Side) (p : Price) (l : PriceLevel) (x : UInt32)
    (o : Order) : PoolOrderBook :=
  (({ b.setOrder x o with
    orderIndex := b.orderIndex.erase o.orderId } : PoolOrderBook).detach s p l x).freeNode x

section Step
variable {l : PriceLevel} {post : List (Price × PriceLevel)} {xs : List UInt32} {o : Order}

theorem queued_of_cut (hc : (b.levels s).entries = (p, l) :: post) :
    b.queued s = b.levelSlots l ++ post.flatMap fun e => b.levelSlots e.2 := by
  rw [queued, hc, List.flatMap_cons]

theorem levelAt_of_cut {pre : List (Price × PriceLevel)}
    (hc : (b.levels s).entries = pre ++ (p, l) :: post) : b.levelAt s p = l := by
  rw [levelAt, SortedMap.find?_of_cut hc, Option.getD_some]

/-- The head index of a level reads off its first slot. -/
theorem Shape.slots_of_head {held : List UInt32} (h : b.Shape held) {pre : List (Price × PriceLevel)}
    (hc : (b.levels s).entries = pre ++ (p, l) :: post) (hne : l.headIdx ≠ invalidIdx) :
    ∃ xs, b.levelSlots l = l.headIdx :: xs := by
  have hlinks := (h.level_of_cut hc).links
  cases hx : b.levelSlots l with
  | nil => rw [hx] at hlinks; exact absurd (hlinks.head_eq_nil_iff.mpr rfl) hne
  | cons x xs =>
    rw [hx] at hlinks
    have := hlinks.head_eq
    exact ⟨xs, by rw [this]; rfl⟩

theorem orderIndex_fillMaker (l : PriceLevel) (o : Order) :
    (b.fillMaker s p l x o).orderIndex = b.orderIndex.erase o.orderId := by
  rw [fillMaker, orderIndex_freeNode, detach, setLevel, orderIndex_setLevels,
    orderIndex_removeFromLevel]

/-- Filling a maker takes its slot off the queue and nothing else. -/
theorem fillMaker_spec (h : b.Shape []) (hc : (b.levels s).entries = (p, l) :: post)
    (hl : b.levelSlots l = x :: xs) (hs : o.side = (b.order x).side)
    (hp : o.price = (b.order x).price) :
    (b.fillMaker s p l x o).Shape [] ∧
    b.queued s = x :: (b.fillMaker s p l x o).queued s ∧
    (b.fillMaker s p l x o).queued s.opp = b.queued s.opp ∧
    (∀ j, j ≠ x → (b.fillMaker s p l x o).order j = b.order j) ∧
    (b.fillMaker s p l x o).levels s.opp = b.levels s.opp ∧
    (b.fillMaker s p l x o).nodes.length = b.nodes.length ∧
    (b.fillMaker s p l x o).freeSlots = x :: b.freeSlots ∧
    ∃ l', ((b.fillMaker s p l x o).levels s).entries = (p, l') :: post ∧
      l'.totalVolume = l.totalVolume - o.remainingQuantity ∧
      (b.fillMaker s p l x o).levelSlots l' = xs := by
  have hc' : (b.levels s).entries = [] ++ (p, l) :: post := hc
  have hr : x.toNat < b.nodes.length := h.range_of_cut hc' (by rw [hl]; simp)
  obtain ⟨hso, hfso, hqo⟩ := h.setOrder hs hp hr
  have hsi := hso.setIndex (b.orderIndex.erase o.orderId)
  set b₁ : PoolOrderBook := { b.setOrder x o with orderIndex := b.orderIndex.erase o.orderId }
    with hb₁
  have hlv : ∀ t, b₁.levels t = b.levels t := fun t => by
    rw [← levels_modifyNode (b := b) (i := x) fun nd => { nd with order := o }]; cases t <;> rfl
  have hslots : b₁.levelSlots = b.levelSlots := levelSlots_setOrder o
  have hq₁ : ∀ t, b₁.queued t = b.queued t := fun t => by rw [queued, hlv, hslots, queued]
  have hc₁ : (b₁.levels s).entries = [] ++ (p, l) :: post := by rw [hlv, hc']
  have hl₁ : b₁.levelSlots l = [] ++ x :: xs := by rw [hslots, hl]; rfl
  have hord₁ : b₁.order = update b.order x o := order_setOrder o hr
  have hlen₁ : b₁.nodes.length = b.nodes.length := length_modifyNode _
  obtain ⟨hd, hdf, hdl, hdq, hdo⟩ := hsi.detach hc₁ hl₁
  obtain ⟨hf, hff, hfq⟩ := hd.freeNode
  have hdef : b.fillMaker s p l x o = (b₁.detach s p l x).freeNode x := rfl
  have hord : (b.fillMaker s p l x o).order = b₁.order := by
    rw [hdef, order_freeNode, detach, setLevel, order_setLevels, order_removeFromLevel]
  have hentries : ((b.fillMaker s p l x o).levels s).entries =
      (p, (b₁.removeFromLevel l x).2) :: post := by
    rw [hdef, levels_freeNode, detach, setLevel, levels_setLevels,
      SortedMap.entries_insert_of_cut (by rw [levels_removeFromLevel]; exact hc₁), List.nil_append]
  refine ⟨hf, ?_, ?_, fun j hj => ?_, ?_, ?_, ?_, (b₁.removeFromLevel l x).2, hentries, ?_, ?_⟩
  · rw [hdef, hfq, hdq, queued_of_cut hc, hl, hslots]
    rfl
  · rw [hdef, hfq, hdo, hq₁]
  · rw [hord, hord₁, Function.update_of_ne hj]
  · rw [hdef, levels_freeNode, detach, setLevel, levels_setLevels_opp, levels_removeFromLevel, hlv]
  · rw [hdef, length_freeNode, detach, setLevel, nodes_setLevels, length_removeFromLevel, hlen₁]
  · rw [hdef, hff, hdf]
    exact congrArg _ hfso
  · rw [totalVolume_removeFromLevel, hord₁, Function.update_self]
  · have hlev : (b.fillMaker s p l x o).LevelInv s p (b₁.removeFromLevel l x).2 xs := by
      refine hdl.congr fun j hj => ?_
      have hnd := (h.level_of_cut hc').links.nodup
      rw [hl] at hnd
      have hjx : j ≠ x := fun he => (List.nodup_cons.mp hnd).1 (he ▸ hj)
      rw [hdef, node_freeNode_of_ne hjx]
    refine hlev.levelSlots_eq fun j hj => hf.range_of_mem (.inr (.inr ⟨s, ?_⟩))
    rw [hfq, hdq]
    simp [hj]

theorem min_of_le {q r : Quantity} (h : r ≤ q) : min q r = r := by
  show (if q ≤ r then q else r) = r
  split_ifs with h'
  · exact UInt32.le_antisymm h' h
  · rfl

theorem min_of_not_le {q r : Quantity} (h : ¬ r ≤ q) : min q r = q :=
  if_pos (UInt32.le_of_lt (UInt32.not_le.mp h))

/-- A maker is filled by a trade of the smaller quantity iff it is the smaller one. -/
theorem sub_min_eq_zero_iff {q r : Quantity} : r - min q r = 0 ↔ r ≤ q := by
  by_cases h : r ≤ q
  · rw [min_of_le h]; simp [h]
  · rw [min_of_not_le h]
    simp only [h, iff_false]
    intro h0
    have : r = q := by grind
    exact h (this ▸ UInt32.le_refl _)

/-- The maker at the head of level `l` is filled. -/
def fillHead (a : Side) (p : Price) (l : PriceLevel) (m : Matching PoolOrderBook) :
    Matching PoolOrderBook :=
  let mk := m.book.order l.headIdx
  ⟨m.book.fillMaker a.opp p l l.headIdx { mk with remainingQuantity := 0 },
    { m.incoming with remainingQuantity :=
      m.incoming.remainingQuantity - mk.remainingQuantity },
    m.outTrades ++ [m.incoming.trade mk mk.remainingQuantity]⟩

/-- The incoming order is used up on the maker at the head of level `l`. -/
def reduceHead (l : PriceLevel) (m : Matching PoolOrderBook) : Matching PoolOrderBook :=
  let mk := m.book.order l.headIdx
  ⟨m.book.setOrder l.headIdx { mk with remainingQuantity :=
      mk.remainingQuantity - m.incoming.remainingQuantity },
    { m.incoming with remainingQuantity := 0 },
    m.outTrades ++ [m.incoming.trade mk m.incoming.remainingQuantity]⟩

/-- One pass of the inner loop, by what it does to the maker. -/
theorem matchLevelStep_eq {m : Matching PoolOrderBook} (ha : m.incoming.side = a)
    {pre : List (Price × PriceLevel)}
    (hc : (m.book.levels a.opp).entries = pre ++ (p, l) :: post) : matchLevelStep a p m =
      if l.headIdx ≠ invalidIdx ∧ m.incoming.remainingQuantity ≠ 0 then
        if (m.book.order l.headIdx).remainingQuantity ≤ m.incoming.remainingQuantity
        then some (fillHead a p l m) else some (reduceHead l m)
      else none := by
  have hpos : m.incoming.remainingQuantity > 0 ↔ m.incoming.remainingQuantity ≠ 0 := by grind
  simp only [matchLevelStep, levelAt_of_cut hc, hpos, Order.isFilled, decide_eq_true_eq,
    sub_min_eq_zero_iff]
  by_cases h1 : l.headIdx ≠ invalidIdx ∧ m.incoming.remainingQuantity ≠ 0
  · by_cases h2 : (m.book.order l.headIdx).remainingQuantity ≤ m.incoming.remainingQuantity
    · simp only [if_pos h1, if_pos h2, min_of_le h2, UInt32.sub_self, fillHead, Order.trade, ha]
      rfl
    · simp only [if_pos h1, if_neg h2, min_of_not_le h2, UInt32.sub_self, reduceHead, Order.trade,
        ha]
  · simp only [if_neg h1]

/-- The two ends of the priority list that a pass works on. -/
theorem resting_of_head {xs : List UInt32} (hc : (b.levels s).entries = (p, l) :: post)
    (hl : b.levelSlots l = x :: xs) : b.queued s = x :: (xs ++ post.flatMap fun e =>
      b.levelSlots e.2) ∧ b.resting s = b.order x ::
        (xs ++ post.flatMap fun e => b.levelSlots e.2).map b.order := by
  have hq : b.queued s = x :: (xs ++ post.flatMap fun e => b.levelSlots e.2) := by
    rw [queued_of_cut hc, hl, List.cons_append]
  exact ⟨hq, by rw [resting, hq, List.map_cons]⟩

theorem fillHead_run {m : Matching PoolOrderBook} (hs : m.book.Shape []) (hi : m.book.Indexed)
    (hc : (m.book.levels a.opp).entries = (p, l) :: post)
    (hl : m.book.levelSlots l = l.headIdx :: xs) (hr : m.incoming.Reaches p)
    (hr0 : m.incoming.remainingQuantity ≠ 0)
    (hle : (m.book.order l.headIdx).remainingQuantity ≤ m.incoming.remainingQuantity) :
    Run a m (fillHead a p l m) ∧
    (fillHead a p l m).book.freeSlots = l.headIdx :: m.book.freeSlots ∧
    ∃ l', ((fillHead a p l m).book.levels a.opp).entries = (p, l') :: post ∧
      l'.totalVolume = l.totalVolume ∧
      (fillHead a p l m).book.levelSlots l' = xs := by
  have hc' : (m.book.levels a.opp).entries = [] ++ (p, l) :: post := hc
  obtain ⟨f1, f2, f3, f4, f5, f6, ff, l', f7, f8, f9⟩ := fillMaker_spec (o :=
    { m.book.order l.headIdx with remainingQuantity := 0 }) hs hc hl rfl rfl
  obtain ⟨hq, hrest⟩ := resting_of_head hc hl
  obtain ⟨hnot1, hnot2⟩ := hs.head_notMem hq
  have hpx : (m.book.order l.headIdx).price = p :=
    ((hs.level_of_cut hc').orders _ (by rw [hl]; exact List.mem_cons_self ..)).2
  rw [Side.opp_opp] at f3 f5 hnot2
  have hq' : (fillHead a p l m).book.queued a.opp =
      xs ++ post.flatMap fun e => m.book.levelSlots e.2 := (List.cons.inj (f2.symm.trans hq)).2
  have hopp : (fillHead a p l m).book.resting a.opp =
      (xs ++ post.flatMap fun e => m.book.levelSlots e.2).map m.book.order := by
    rw [resting, hq']
    exact map_order_congr fun j hj => f4 j fun he => hnot1 (he ▸ hj)
  refine ⟨⟨f1, ?_, rfl, f5, ?_, f6, ?_, ?_⟩, ff, l', f7, by rw [f8, UInt32.sub_zero], f9⟩
  · have hperm : m.book.live.Perm (l.headIdx :: (fillHead a p l m).book.live) := by
      refine (m.book.live_perm a.opp).trans ?_
      rw [f2, List.cons_append, Side.opp_opp, ← f3]
      refine .cons _ ?_
      have := ((fillHead a p l m).book.live_perm a.opp).symm
      rwa [Side.opp_opp] at this
    have hxn := (List.nodup_cons.mp (hperm.nodup_iff.mp hs.live_nodup)).1
    exact hi.remove hperm
      (fun j hj => congrArg _ (f4 j fun he => hxn (he ▸ hj))) (orderIndex_fillMaker ..)
  · rw [resting, resting]
    exact (congrArg _ f3).trans (map_order_congr fun j hj => f4 j fun he => hnot2 (he ▸ hj))
  · rw [outcome, outcome, hopp, hrest, fill, if_neg (by rw [hpx]; tauto), if_pos hle]
    simp only [fillHead, fill_remaining, List.append_assoc, List.singleton_append]
  · rw [hopp, hrest, List.map_cons]
    exact List.suffix_cons ..

theorem reduceHead_run {m : Matching PoolOrderBook} (hs : m.book.Shape []) (hi : m.book.Indexed)
    (hc : (m.book.levels a.opp).entries = (p, l) :: post)
    (hl : m.book.levelSlots l = l.headIdx :: xs) (hr : m.incoming.Reaches p)
    (hr0 : m.incoming.remainingQuantity ≠ 0)
    (hle : ¬ (m.book.order l.headIdx).remainingQuantity ≤ m.incoming.remainingQuantity) :
    Run a m (reduceHead l m) ∧ ((reduceHead l m).book.levels a.opp).entries = (p, l) :: post ∧
      (reduceHead l m).book.levelSlots l = l.headIdx :: xs := by
  have hc' : (m.book.levels a.opp).entries = [] ++ (p, l) :: post := hc
  have hrange : l.headIdx.toNat < m.book.nodes.length := hs.range_of_cut hc' (by simp [hl])
  obtain ⟨hq, hrest⟩ := resting_of_head hc hl
  obtain ⟨hnot1, hnot2⟩ := hs.head_notMem hq
  rw [Side.opp_opp] at hnot2
  have hpx : (m.book.order l.headIdx).price = p :=
    ((hs.level_of_cut hc').orders _ (by rw [hl]; exact List.mem_cons_self ..)).2
  set o : Order := { m.book.order l.headIdx with remainingQuantity :=
    (m.book.order l.headIdx).remainingQuantity - m.incoming.remainingQuantity } with ho
  have hbook : (reduceHead l m).book = m.book.setOrder l.headIdx o := rfl
  obtain ⟨s1, _, s3⟩ := hs.setOrder (o := o) (i := l.headIdx) rfl rfl hrange
  have hord : (m.book.setOrder l.headIdx o).order = update m.book.order l.headIdx o :=
    order_setOrder o hrange
  have hother : ∀ j, j ≠ l.headIdx → (m.book.setOrder l.headIdx o).order j = m.book.order j :=
    fun j hj => by rw [hord, Function.update_of_ne hj]
  have hlvs : ∀ t, (m.book.setOrder l.headIdx o).levels t = m.book.levels t := fun t =>
    levels_modifyNode _
  have hopp : (m.book.setOrder l.headIdx o).resting a.opp =
      o :: (xs ++ post.flatMap fun e => m.book.levelSlots e.2).map m.book.order := by
    rw [resting, s3, hq, List.map_cons, hord, Function.update_self, ← hord]
    exact congrArg _ (map_order_congr fun j hj => hother j fun he => hnot1 (he ▸ hj))
  refine ⟨⟨s1, ?_, rfl, hlvs a, ?_, length_modifyNode _, ?_, ?_⟩, ?_, ?_⟩
  · refine hi.keep (by rw [hbook, live, s3, s3, live]) (fun j _ => ?_) rfl
    rw [hbook]
    by_cases hj : j = l.headIdx
    · rw [hj, hord, Function.update_self]
    · rw [hother j hj]
  · rw [hbook, resting, s3, resting]
    exact map_order_congr fun j hj => hother j fun he => hnot2 (he ▸ hj)
  · have h0 : outcome a (reduceHead l m) = (m.outTrades ++ [m.incoming.trade
        (m.book.order l.headIdx) m.incoming.remainingQuantity], 0,
        (reduceHead l m).book.resting a.opp) := by
      rw [outcome]
      simp only [reduceHead, fill_zero, List.append_nil]
    rw [h0, hbook, hopp, outcome, hrest, fill, if_neg (by rw [hpx]; tauto), if_neg hle]
  · rw [hbook, hopp, hrest]
    exact List.suffix_refl _
  · rw [hbook, hlvs, hc]
  · rw [hbook, levelSlots_setOrder, hl]

/-! ### The inner loop -/

/-- The inner loop in the middle of the level under `p`, with the levels `post` behind it. -/
structure InLevel (a : Side) (p : Price) (post : List (Price × PriceLevel)) (v : Quantity)
    (m₀ m : Matching PoolOrderBook) : Prop where
  run : Run a m₀ m
  reaches : m.incoming.Reaches p
  level : ∃ l, (m.book.levels a.opp).entries = (p, l) :: post ∧ l.totalVolume = v

/-- Passes that the inner loop can still make. -/
def passesLeft (a : Side) (p : Price) (m : Matching PoolOrderBook) : ℕ :=
  (m.book.levelSlots (m.book.levelAt a.opp p)).length +
    if m.incoming.remainingQuantity = 0 then 0 else 1

theorem passesLeft_of_cut {m : Matching PoolOrderBook}
    (hc : (m.book.levels a.opp).entries = (p, l) :: post) : passesLeft a p m =
      (m.book.levelSlots l).length + if m.incoming.remainingQuantity = 0 then 0 else 1 := by
  rw [passesLeft, levelAt_of_cut (cut_head hc)]

/-- One pass keeps the inner invariant and leaves fewer passes to make. -/
theorem InLevel.step {m₀ m m' : Matching PoolOrderBook} {v : Quantity}
    (h : InLevel a p post v m₀ m) (ha : m.incoming.side = a)
    (hstep : matchLevelStep a p m = some m') :
    InLevel a p post v m₀ m' ∧ passesLeft a p m' < passesLeft a p m := by
  obtain ⟨l, hc, hv⟩ := h.level
  rw [matchLevelStep_eq ha (cut_head hc)] at hstep
  split_ifs at hstep with hgo hle
  · obtain ⟨xs, hl⟩ := h.run.shape.slots_of_head (cut_head hc) hgo.1
    obtain ⟨hrun, -, l', hc', hv', hl'⟩ :=
      fillHead_run h.run.shape h.run.indexed hc hl h.reaches hgo.2 hle
    cases hstep
    refine ⟨⟨h.run.trans hrun, h.reaches, l', hc', hv'.trans hv⟩, ?_⟩
    rw [passesLeft_of_cut hc, passesLeft_of_cut hc', hl, hl', if_neg hgo.2, List.length_cons]
    split_ifs <;> omega
  · obtain ⟨xs, hl⟩ := h.run.shape.slots_of_head (cut_head hc) hgo.1
    obtain ⟨hrun, hc', hl'⟩ := reduceHead_run h.run.shape h.run.indexed hc hl h.reaches hgo.2 hle
    cases hstep
    refine ⟨⟨h.run.trans hrun, h.reaches, l, hc', hv⟩, ?_⟩
    have hfilled : (reduceHead l m).incoming.remainingQuantity = 0 := rfl
    rw [passesLeft_of_cut hc, passesLeft_of_cut hc', hl, hl', if_neg hgo.2, if_pos hfilled]
    omega

theorem Run.side {m₀ m : Matching PoolOrderBook} (h : Run a m₀ m) :
    m.incoming.side = m₀.incoming.side := by rw [h.incoming]

/-- The side of the incoming order is part of the inner invariant. -/
theorem InLevel.step' {m₀ : Matching PoolOrderBook} {v : Quantity} (ha : m₀.incoming.side = a)
    (m m' : Matching PoolOrderBook) (h : InLevel a p post v m₀ m)
    (hstep : matchLevelStep a p m = some m') :
    InLevel a p post v m₀ m' ∧ passesLeft a p m' < passesLeft a p m :=
  h.step (h.run.side.trans ha) hstep

/-- Every slot of a level is a slot of the pool, so the fuel of the inner loop is enough. -/
theorem passesLeft_le {m : Matching PoolOrderBook} (hs : m.book.Shape [])
    (hc : (m.book.levels a.opp).entries = (p, l) :: post) :
    passesLeft a p m ≤ m.book.nodes.length + 1 := by
  rw [passesLeft_of_cut hc]
  have := length_le_of_nodup (hs.level_of_cut (cut_head hc)).links.nodup fun i hi =>
    hs.range_of_cut (cut_head hc) hi
  split_ifs <;> omega

/-- The inner loop stops, with the level used up or the incoming order filled. -/
theorem matchLevel_spec {m : Matching PoolOrderBook} (hs : m.book.Shape []) (hi : m.book.Indexed)
    (ha : m.incoming.side = a) (hc : (m.book.levels a.opp).entries = (p, l) :: post)
    (hr : m.incoming.Reaches p) :
    Exits (matchLevelStep a p) m (matchLevel a p m) ∧
    Run a m (matchLevel a p m) ∧
    ∃ l', ((matchLevel a p m).book.levels a.opp).entries = (p, l') :: post ∧
      l'.totalVolume = l.totalVolume ∧
      (l'.headIdx = invalidIdx ∨ (matchLevel a p m).incoming.remainingQuantity = 0) := by
  have h₀ : InLevel a p post l.totalVolume m m := ⟨.refl hs hi, hr, l, hc, rfl⟩
  have hfuel := passesLeft_le hs hc
  obtain ⟨hin, hdone⟩ := loop_rule (passesLeft a p) (InLevel.step' ha) h₀ hfuel
  refine ⟨loop_exits (passesLeft a p) (InLevel.step' ha) _ m h₀ hfuel, hin.run, ?_⟩
  obtain ⟨l', hc', hv'⟩ := hin.level
  refine ⟨l', hc', hv', ?_⟩
  rw [matchLevelStep_eq (hin.run.side.trans ha) (cut_head hc')] at hdone
  split_ifs at hdone with hgo
  exact (not_and_or.mp hgo).imp not_not.mp not_not.mp

/-! ### The outer loop -/

/-- Cached volumes of the levels of a side. -/
def volumes (b : PoolOrderBook) (s : Side) : List (Price × Quantity) :=
  (b.levels s).entries.map fun e => (e.1, e.2.totalVolume)

/-- The outer loop between two levels. -/
structure Between (a : Side) (m₀ m : Matching PoolOrderBook) : Prop where
  run : Run a m₀ m
  noEmptyLevel : m.book.NoEmptyLevel
  /-- Matching leaves the volume counters of the surviving levels as they are. -/
  volumes : m.book.volumes a.opp <:+ m₀.book.volumes a.opp

theorem Between.refl {m : Matching PoolOrderBook} (hs : m.book.Shape []) (hi : m.book.Indexed)
    (hne : m.book.NoEmptyLevel) : Between a m m := ⟨.refl hs hi, hne, List.suffix_refl _⟩

/-- The outer test, by the level that is matched next. -/
theorem nextLevel_eq_some_iff {m : Matching PoolOrderBook} (hs : m.book.Shape [])
    (ha : m.incoming.side = a) : nextLevel a m = some p ↔
      m.incoming.remainingQuantity ≠ 0 ∧ m.incoming.Reaches p ∧
        ∃ l post, (m.book.levels a.opp).entries = (p, l) :: post := by
  have hpos : m.incoming.remainingQuantity > 0 ↔ m.incoming.remainingQuantity ≠ 0 := by grind
  rw [nextLevel, SortedMap.begin?]
  cases hc : (m.book.levels a.opp).entries with
  | nil => simp
  | cons e post =>
    obtain ⟨p', l'⟩ := e
    have hprice : l'.price = p' := (hs.level_of_cut (cut_head hc)).price
    simp only [List.head?_cons, hprice, hpos, Order.Reaches, ha]
    constructor
    · intro h
      split_ifs at h with h1 h2
      cases h
      exact ⟨h1, h2, l', post, rfl⟩
    · rintro ⟨h1, h2, l, post', h3⟩
      cases h3
      rw [if_pos h1, if_neg h2]

/-- When the outer loop stops there is nothing left to fill. -/
theorem outcome_of_done {m : Matching PoolOrderBook} (hs : m.book.Shape [])
    (hne : m.book.NoEmptyLevel) (ha : m.incoming.side = a) (hdone : matchStep a m = none) :
    outcome a m = (m.outTrades, m.incoming.remainingQuantity, m.book.resting a.opp) := by
  have hnone : nextLevel a m = none := by
    cases h : nextLevel a m with
    | none => rfl
    | some p => rw [matchStep, h] at hdone; dsimp only at hdone; split_ifs at hdone
  suffices h : fill m.incoming m.incoming.remainingQuantity (m.book.resting a.opp) =
      ⟨[], m.incoming.remainingQuantity, m.book.resting a.opp⟩ by
    rw [outcome, h, List.append_nil]
  cases hc : (m.book.levels a.opp).entries with
  | nil => rw [resting, queued, hc]; rfl
  | cons e post =>
    obtain ⟨p, l⟩ := e
    obtain ⟨xs, hl⟩ := hs.slots_of_head (cut_head hc) (hne a.opp (p, l) (by rw [hc]; simp))
    have hpx : (m.book.order l.headIdx).price = p :=
      ((hs.level_of_cut (cut_head hc)).orders _ (by rw [hl]; exact List.mem_cons_self ..)).2
    rw [(resting_of_head hc hl).2]
    refine fill_stop _ ?_
    rw [hpx]
    by_contra hcon
    rw [not_or, not_not] at hcon
    have := (nextLevel_eq_some_iff hs ha).mpr ⟨hcon.1, hcon.2, l, post, hc⟩
    rw [hnone] at this; cases this

/-- One pass of the outer loop keeps its invariant; it erases a level or fills the order. -/
theorem Between.step {m₀ : Matching PoolOrderBook} (ha : m₀.incoming.side = a)
    (m m' : Matching PoolOrderBook) (h : Between a m₀ m) (hstep : matchStep a m = some m') :
    Between a m₀ m' ∧ (m'.book.levels a.opp).size +
      (if m'.incoming.remainingQuantity = 0 then 0 else 1) <
        (m.book.levels a.opp).size + if m.incoming.remainingQuantity = 0 then 0 else 1 := by
  have ham := h.run.side.trans ha
  rw [matchStep] at hstep
  cases hnext : nextLevel a m with
  | none => rw [hnext] at hstep; cases hstep
  | some p =>
    obtain ⟨hr0, hr, l, post, hc⟩ := (nextLevel_eq_some_iff h.run.shape ham).mp hnext
    obtain ⟨-, hrun, l', hc', hv', hexit⟩ := matchLevel_spec h.run.shape h.run.indexed ham hc hr
    have hrest : ∀ e ∈ post, e.2.headIdx ≠ invalidIdx := fun e he =>
      h.noEmptyLevel a.opp e (by rw [hc]; exact List.mem_cons_of_mem _ he)
    have hown : ∀ e ∈ ((matchLevel a p m).book.levels a).entries, e.2.headIdx ≠ invalidIdx := by
      rw [hrun.ownLevels]; exact h.noEmptyLevel a
    have hvol : m.book.volumes a.opp =
        (p, l.totalVolume) :: post.map fun e => (e.1, e.2.totalVolume) := by
      rw [PoolOrderBook.volumes, hc, List.map_cons]
    have hsize : (m.book.levels a.opp).size = post.length + 1 := by
      rw [SortedMap.size, hc, List.length_cons]
    rw [hnext] at hstep
    dsimp only at hstep
    simp only [levelAt_of_cut (cut_head hc'), PriceLevel.empty, decide_eq_true_eq] at hstep
    split_ifs at hstep with hempty
    · -- the level is used up
      cases hstep
      have hslots : (matchLevel a p m).book.levelSlots l' = [] :=
        (hrun.shape.level_of_cut (cut_head hc')).links.head_eq_nil_iff.mp hempty
      obtain ⟨e1, -, e3, e4⟩ := hrun.shape.eraseLevel (cut_head hc') hslots
      rw [Side.opp_opp] at e4
      have hentries : (((matchLevel a p m).book.eraseLevel a.opp p).levels a.opp).entries =
          post := by
        rw [eraseLevel, levels_setLevels, SortedMap.entries_erase_of_cut (cut_head hc'),
          List.nil_append]
      have hord : ((matchLevel a p m).book.eraseLevel a.opp p).order =
          (matchLevel a p m).book.order := order_setLevels _
      have hresting : ∀ t, ((matchLevel a p m).book.eraseLevel a.opp p).resting t =
          (matchLevel a p m).book.resting t := fun t => by
        rw [resting, resting, hord]
        rcases a.eq_or_eq_opp t with rfl | rfl
        · rw [e4]
        · rw [e3]
      have hownl : ((matchLevel a p m).book.eraseLevel a.opp p).levels a =
          (matchLevel a p m).book.levels a := levels_setLevels_of_opp _
      refine ⟨⟨h.run.trans ⟨e1, ?_, hrun.incoming, hownl.trans hrun.ownLevels,
        (hresting a).trans hrun.ownResting, ?_, ?_, ?_⟩, ?_, ?_⟩, ?_⟩
      · refine hrun.indexed.keep ?_ (fun j _ => by rw [hord]) (orderIndex_setLevels _)
        rw [live, live]
        cases a with
        | buy => exact congrArg₂ _ e4 e3
        | sell => exact congrArg₂ _ e3 e4
      · exact (congrArg List.length (nodes_setLevels _)).trans hrun.capacity
      · rw [← hrun.outcome, outcome, outcome, hresting]
      · rw [hresting]; exact hrun.suffix
      · intro t
        rcases a.eq_or_eq_opp t with rfl | rfl
        · rw [hownl]; exact hown
        · rw [hentries]; exact hrest
      · rw [PoolOrderBook.volumes, hentries]
        exact (List.suffix_cons ..).trans (hvol ▸ h.volumes)
      · rw [SortedMap.size, hentries, hsize, if_neg hr0]
        split_ifs <;> omega
    · -- the incoming order is used up
      cases hstep
      have hr0' := hexit.resolve_left hempty
      refine ⟨⟨h.run.trans hrun, fun t => ?_, ?_⟩, ?_⟩
      · rcases a.eq_or_eq_opp t with rfl | rfl
        · exact hown
        · rw [hc']; exact List.forall_mem_cons.mpr ⟨hempty, hrest⟩
      · rw [PoolOrderBook.volumes, hc', List.map_cons, hv', ← hvol]; exact h.volumes
      · rw [hsize, SortedMap.size, hc', List.length_cons, if_pos hr0', if_neg hr0]
        omega

/-- The match loops stop, and what they did is the greedy fill. -/
theorem matchSide_spec {m : Matching PoolOrderBook} (hs : m.book.Shape []) (hi : m.book.Indexed)
    (hne : m.book.NoEmptyLevel) (ha : m.incoming.side = a) :
    Exits (matchStep a) m (matchSide a m) ∧ Between a m (matchSide a m) ∧
      ((matchSide a m).outTrades, (matchSide a m).incoming.remainingQuantity,
        (matchSide a m).book.resting a.opp) = outcome a m := by
  have h₀ : Between a m m := .refl hs hi hne
  have hfuel : (m.book.levels a.opp).size +
      (if m.incoming.remainingQuantity = 0 then 0 else 1) ≤ (m.book.levels a.opp).size + 1 := by
    split_ifs <;> omega
  let μ := fun m : Matching PoolOrderBook => (m.book.levels a.opp).size +
    if m.incoming.remainingQuantity = 0 then 0 else 1
  obtain ⟨hb, hdone⟩ := loop_rule μ (Between.step ha) h₀ hfuel
  refine ⟨loop_exits μ (Between.step ha) _ m h₀ hfuel, hb, ?_⟩
  rw [← hb.run.outcome]
  exact (outcome_of_done hb.run.shape hb.noEmptyLevel (hb.run.side.trans ha) hdone).symm

end Step

end PoolOrderBook

end Titan
