import Titan.Engine.Run

/-! Where the slots of the pool are, in every state and in the middle of every call. -/

namespace Titan
open Schemes

namespace PoolOrderBook
variable {b : PoolOrderBook} {o : Order} {out : List Trade} {p : Price} {i : UInt32}

/-! ### In the middle of a submission -/

/-- `m` is the state of a submission at some test of the inner loop, in the level under `p`. -/
def Midway (b : PoolOrderBook) (o : Order) (out : List Trade) (p : Price)
    (m : Matching PoolOrderBook) : Prop := ∃ m₁, Iterates (matchStep o.side) (b.entry o out) m₁ ∧
  nextLevel o.side m₁ = some p ∧ Iterates (matchLevelStep o.side p) m₁ m

theorem Inv.between (h : b.Inv) {m : Matching PoolOrderBook}
    (hm : Iterates (matchStep o.side) (b.entry o out) m) : Between o.side (b.entry o out) m := by
  have hside : (b.entry o out).incoming.side = o.side := rfl
  exact hm.invariant (fun m₁ m₂ h₁ h₂ => (Between.step hside m₁ m₂ h₁ h₂).1)
    (.refl h.shape h.indexed h.noEmptyLevel)

theorem Inv.inLevel (h : b.Inv) {m : Matching PoolOrderBook} (hm : b.Midway o out p m) :
    ∃ post v, InLevel o.side p post v (b.entry o out) m := by
  obtain ⟨m₁, h₁, hnext, h₂⟩ := hm
  have hside : (b.entry o out).incoming.side = o.side := rfl
  have hb := h.between h₁
  obtain ⟨-, hr, l, post, hc⟩ := (nextLevel_eq_some_iff hb.run.shape hb.run.side).mp hnext
  exact ⟨post, l.totalVolume, h₂.invariant
    (fun m₁ m₂ h₁ h₂ => (InLevel.step' hside m₁ m₂ h₁ h₂).1) ⟨hb.run, hr, l, hc, rfl⟩⟩

/-- A pass of the inner loop works on the slot at the head of its level. It frees the slot when the
    maker is filled, and leaves all slots where they are otherwise. -/
theorem Inv.pass_slots (h : b.Inv) {m m' : Matching PoolOrderBook} (hm : b.Midway o out p m)
    (hstep : matchLevelStep o.side p m = some m') :
    (m.book.levelAt o.side.opp p).headIdx ∈ m.book.live ∧
    (m'.book.freeSlots = m.book.freeSlots ∧ m'.book.live = m.book.live ∨
      m'.book.freeSlots = (m.book.levelAt o.side.opp p).headIdx :: m.book.freeSlots ∧
      m.book.live.Perm ((m.book.levelAt o.side.opp p).headIdx :: m'.book.live)) := by
  obtain ⟨post, v, hin⟩ := h.inLevel hm
  obtain ⟨l, hc, -⟩ := hin.level
  rw [levelAt_of_cut (cut_head hc)]
  have hside : m.incoming.side = o.side := hin.run.side
  rw [matchLevelStep_eq hside (cut_head hc)] at hstep
  split_ifs at hstep with hgo hle
  · obtain ⟨xs, hl⟩ := hin.run.shape.slots_of_head (cut_head hc) hgo.1
    cases hstep
    obtain ⟨-, f2, f3, -, -, -, ff, -⟩ := fillMaker_spec (o :=
      { m.book.order l.headIdx with remainingQuantity := 0 }) hin.run.shape hc hl rfl rfl
    have hperm : m.book.live.Perm (l.headIdx :: (fillHead o.side p l m).book.live) := by
      refine (m.book.live_perm o.side.opp).trans (.trans ?_ ((live_perm _ o.side.opp).symm.cons _))
      exact .of_eq (by rw [f2, List.cons_append, ← f3]; rfl)
    exact ⟨hperm.mem_iff.mpr (List.mem_cons_self ..), .inr ⟨ff, hperm⟩⟩
  · obtain ⟨xs, hl⟩ := hin.run.shape.slots_of_head (cut_head hc) hgo.1
    cases hstep
    have hmem : l.headIdx ∈ m.book.queued o.side.opp := by
      rw [(resting_of_head hc hl).1]; exact List.mem_cons_self ..
    obtain ⟨-, s2, s3⟩ := hin.run.shape.setOrder (i := l.headIdx) (o :=
      { m.book.order l.headIdx with remainingQuantity :=
        (m.book.order l.headIdx).remainingQuantity - m.incoming.remainingQuantity }) rfl rfl
      (hin.run.shape.range_of_mem (.inr (.inr ⟨_, hmem⟩)))
    refine ⟨(m.book.mem_live o.side.opp).mpr (.inl hmem), .inl ⟨s2, ?_⟩⟩
    exact congrArg₂ (· ++ ·) (s3 .buy) (s3 .sell)

/-! ### Free and live slots -/

namespace Inv

theorem free_or_live (h : b.Inv) (i : UInt32) : b.freeSlots.count i + b.live.count i =
    if i.toNat < b.poolCapacity then 1 else 0 := by
  have := h.shape.once i
  rw [live, List.count_append, poolCapacity, ← this, List.count_nil]
  omega

theorem notMem_freeSlots (h : b.Inv) (hi : i ∈ b.live) : i ∉ b.freeSlots := fun hf => by
  have h1 := h.free_or_live i
  have h2 := List.count_pos_iff.mpr hi
  have h3 := List.count_pos_iff.mpr hf
  split_ifs at h1 <;> omega

/-- Free slots and live slots are all slots. -/
theorem slots_perm (h : b.Inv) : (b.freeSlots ++ b.live).Perm (slotRange 0 b.poolCapacity) := by
  refine List.perm_iff_count.mpr fun i => ?_
  have hcap : b.poolCapacity < 2 ^ 32 := h.shape.capacity
  rw [List.count_append, h.free_or_live, count_slotRange (by omega)]
  simp

theorem freeSlots_length (h : b.Inv) : b.freeSlots.length + b.totalOrders = b.poolCapacity := by
  have := h.slots_perm.length_eq
  rw [List.length_append, slotRange, List.length_map, List.length_range'] at this
  rw [totalOrders, h.indexed.size]
  exact this

/-- A cancelled order was live, and its slot is free afterwards, once. -/
theorem cancel_slots {id : OrderId} (h : b.Inv) (hf : b.orderIndex.find? id = some i) :
    i ∈ b.live ∧ (b.cancelOrder id).2.freeSlots = i :: b.freeSlots ∧
      b.live.Perm (i :: (b.cancelOrder id).2.live) := by
  obtain ⟨hi, -⟩ := (h.indexed.find id i).mp hf
  obtain ⟨s, his⟩ := b.exists_queued hi
  have hside : (b.order i).side = s := (h.shape.of_queued his).1
  obtain ⟨u1, u2, u3, ⟨ys, zs, u4, u5⟩, u6⟩ := unlink_spec h his
  obtain ⟨-, f2, f3⟩ := u1.freeNode
  rw [cancelOrder_of_find hf, hside]
  refine ⟨hi, f2.trans (by rw [u3]), ?_⟩
  set b₁ := (b.unlink s (b.order i).price i).freeNode i
  have hlive : ∀ t, ({ b₁ with orderIndex := b₁.orderIndex.erase id } : PoolOrderBook).queued t =
      (b.unlink s (b.order i).price i).queued t := fun t => by
    rw [← f3 t]; cases t <;> rfl
  refine (b.live_perm s).trans (.trans ?_ ((live_perm _ s).symm.cons i))
  rw [hlive, hlive, u5, u6, u4, ← List.cons_append]
  exact List.perm_middle.append_right _

/-- Resting takes the first free slot; only when no slot is free does the pool grow. -/
theorem rest_slots (h : b.Inv) (hcap : (b.allocateNode o).2.Fits) :
    (b.allocateNode o).1 ∉ b.live ∧
    if b.freeSlots = [] then b.live.length = b.poolCapacity
    else b.freeSlots = (b.allocateNode o).1 :: (b.allocateNode o).2.freeSlots ∧
      (b.allocateNode o).2.poolCapacity = b.poolCapacity := by
  obtain ⟨hs, -, hq, -, hgrow⟩ := h.shape.allocateNode (o := o) hcap
  refine ⟨fun hi => ?_, ?_⟩
  · have h1 := hs.once_le .buy (b.allocateNode o).1
    have h2 := List.count_pos_iff.mpr hi
    rw [hq, hq] at h1
    rw [live, List.count_append] at h2
    simp only [List.count_cons_self, Side.opp] at h1
    omega
  · split_ifs at hgrow ⊢ with hf
    · have := h.slots_perm.length_eq
      rwa [hf, List.nil_append, slotRange, List.length_map, List.length_range'] at this
    · exact hgrow

end Inv

/-! ### The representation -/

/-- What is true of the slots of `nodes` between any two calls. -/
structure Represented (b : PoolOrderBook) : Prop where
  /-- The free list is the chain from `freeHead`; it has no cycle and ends at the sentinel. -/
  free : Chain b.next b.freeHead b.freeSlots invalidIdx ∧ b.freeSlots.Nodup ∧
    b.freeSlots.length + b.totalOrders = b.poolCapacity
  /-- A slot is on the free list or in the queue of one level, once. -/
  place : ∀ i : UInt32, i.toNat < b.poolCapacity → Xor (i ∈ b.freeSlots)
    (∃! e : Side × Price, ∃ l, (b.levels e.1).find? e.2 = some l ∧ i ∈ b.levelSlots l)
  /-- Nothing else is on the free list or in a queue. -/
  range : ∀ i ∈ b.freeSlots ++ b.live, i.toNat < b.poolCapacity
  /-- Every level is a doubly linked queue of its orders. -/
  level : ∀ s, ∀ e ∈ (b.levels s).entries,
    DQueue invalidIdx b.next b.prev e.2.headIdx e.2.tailIdx (b.levelSlots e.2) ∧
    b.levelSlots e.2 ≠ [] ∧ e.2.orderCount.toNat = (b.levelSlots e.2).length ∧ e.2.price = e.1 ∧
    ∀ i ∈ b.levelSlots e.2, (b.order i).side = s ∧ (b.order i).price = e.1
  /-- The index maps the ids of the queued orders to their slots, and no two ids to one slot. -/
  index : (∀ id i, b.orderIndex.find? id = some i ↔ i ∈ b.live ∧ (b.order i).orderId = id) ∧
    ∀ id id' i, b.orderIndex.find? id = some i → b.orderIndex.find? id' = some i → id = id'

/-- What calls do with slots from here on: cancels find the level of the order, slots that are freed
    were live and not free, slots that are handed out were free, and the pool grows only when every
    slot is live. -/
structure Disciplined (b : PoolOrderBook) : Prop where
  lookup : ∀ id i, b.orderIndex.find? id = some i →
    ((b.levels (b.order i).side).find? (b.order i).price).isSome
  cancel : ∀ id i, b.orderIndex.find? id = some i → i ∈ b.live ∧ i ∉ b.freeSlots ∧
    (b.cancelOrder id).2.freeSlots = i :: b.freeSlots ∧
    b.live.Perm (i :: (b.cancelOrder id).2.live)
  pass : ∀ o out p m m', b.Midway o out p m → matchLevelStep o.side p m = some m' →
    (m.book.levelAt o.side.opp p).headIdx ∈ m.book.live ∧
    (m.book.levelAt o.side.opp p).headIdx ∉ m.book.freeSlots ∧
    (m'.book.freeSlots = m.book.freeSlots ∧ m'.book.live = m.book.live ∨
      m'.book.freeSlots = (m.book.levelAt o.side.opp p).headIdx :: m.book.freeSlots ∧
      m.book.live.Perm ((m.book.levelAt o.side.opp p).headIdx :: m'.book.live))
  rest : ∀ o out x, ((b.matched o out).book.allocateNode x).2.Fits →
    ((b.matched o out).book.allocateNode x).1 ∉ (b.matched o out).book.live ∧
    if (b.matched o out).book.freeSlots = []
    then (b.matched o out).book.live.length = (b.matched o out).book.poolCapacity
    else (b.matched o out).book.freeSlots = ((b.matched o out).book.allocateNode x).1 ::
        ((b.matched o out).book.allocateNode x).2.freeSlots ∧
      ((b.matched o out).book.allocateNode x).2.poolCapacity =
        (b.matched o out).book.poolCapacity

theorem Inv.represented (h : b.Inv) : b.Represented where
  free := by
    refine ⟨h.shape.free, List.nodup_iff_count_le_one.mpr fun i => ?_, h.freeSlots_length⟩
    have := h.free_or_live i
    split_ifs at this <;> omega
  place i hi := by
    have hone := h.free_or_live i
    rw [if_pos hi] at hone
    by_cases hf : i ∈ b.freeSlots
    · refine .inl ⟨hf, ?_⟩
      rintro ⟨⟨s, p⟩, ⟨l, hl, hil⟩, -⟩
      have hq : i ∈ b.queued s := Shape.levelSlots_subset
        (SortedMap.find?_eq_some_iff_mem.mp hl) hil
      exact h.notMem_freeSlots ((b.mem_live s).mpr (.inl hq)) hf
    · have hlive : i ∈ b.live := by
        rw [List.count_eq_zero.mpr hf] at hone
        exact List.count_pos_iff.mp (by omega)
      obtain ⟨s, hs⟩ := b.exists_queued hlive
      obtain ⟨hside, pre, l, post, xs, ys, hc, hl⟩ := h.shape.of_queued hs
      refine .inr ⟨⟨(s, (b.order i).price), ⟨l, SortedMap.find?_of_cut hc, by rw [hl]; simp⟩, ?_⟩,
        hf⟩
      rintro ⟨t, p⟩ ⟨l', hl', hil'⟩
      obtain ⟨hs', hp'⟩ := (h.shape.level t (p, l')
        (SortedMap.find?_eq_some_iff_mem.mp hl')).orders i hil'
      exact Prod.ext (hs'.symm.trans hside) hp'.symm
  range i hi := by
    have := h.free_or_live i
    have hp := List.count_pos_iff.mpr hi
    rw [List.count_append] at hp
    by_contra hn
    rw [if_neg hn] at this
    omega
  level s e he := by
    obtain ⟨h1, h2, h3, h4⟩ := h.shape.level s e he
    exact ⟨h1, fun hn => h.noEmptyLevel s e he (h1.head_eq_nil_iff.mpr hn), h2, h3, h4⟩
  index := by
    refine ⟨h.indexed.find, fun id id' i h1 h2 => ?_⟩
    rw [← ((h.indexed.find id i).mp h1).2, ((h.indexed.find id' i).mp h2).2]

theorem Inv.disciplined (h : b.Inv) : b.Disciplined where
  lookup id i hf := by
    obtain ⟨hi, -⟩ := (h.indexed.find id i).mp hf
    rcases (b.mem_live .buy).mp hi with hq | hq
    all_goals
      obtain ⟨hside, pre, l, post, -, -, hc, -⟩ := h.shape.of_queued hq
      rw [hside, SortedMap.find?_of_cut hc]
      rfl
  cancel id i hf := by
    obtain ⟨h1, h2, h3⟩ := h.cancel_slots hf
    exact ⟨h1, h.notMem_freeSlots h1, h2, h3⟩
  pass o out p m m' hm hstep := by
    obtain ⟨h1, h2⟩ := h.pass_slots hm hstep
    obtain ⟨post, v, hin⟩ := h.inLevel hm
    refine ⟨h1, fun hf => ?_, h2⟩
    have ho := hin.run.shape.once (m.book.levelAt o.side.opp p).headIdx
    have h3 := List.count_pos_iff.mpr h1
    have h4 := List.count_pos_iff.mpr hf
    rw [live, List.count_append] at h3
    split_ifs at ho <;> omega
  rest o out x hfit := (matched_spec h o out).1.inv.rest_slots hfit

/-- In every reachable state every slot is in its one place, and calls keep the discipline. -/
theorem reachable_represented (h : b.Reachable) : b.Represented ∧ b.Disciplined :=
  ⟨h.good.1.represented, h.good.1.disciplined⟩

theorem close_represented : tradingDayClose.Represented ∧ tradingDayClose.Disciplined :=
  reachable_represented tradingDayClose_reachable

end PoolOrderBook

end Titan
