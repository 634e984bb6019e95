import Titan.Engine.Trim
import Titan.Engine.Views

/-! How large a pool may get before its slot numbers run out.

    Slot numbers are cast to 32 bits wherever the free list is laid out. A pool of up to `2 ^ 32` slots
    behaves as its trimmed copy does, so its slots are handed out as they should be; the casts of a
    larger one lose a bit. What takes a pool over that limit is an order that comes to rest when all
    numbered slots of more than `2 ^ 31` are in use. -/

namespace Titan
open Schemes

/-! ### Casts -/

/-- `static_cast<uint32_t>(n)` is `n`. -/
def CastKept (n : ℕ) : Prop := (UInt32.ofNat n).toNat = n

/-- The casts of a free list that is laid out over the slots from `start` up to `size`. -/
def LinksKept (start size : ℕ) : Prop :=
  ∀ i, start ≤ i → i + 1 < size → (freeLink size i).toNat = i + 1

theorem linksKept_iff {start size : ℕ} (h : start < 2 ^ 32) :
    LinksKept start size ↔ size ≤ 2 ^ 32 := by
  constructor
  · intro hkept
    by_contra hsize
    -- the number of slot `2 ^ 32` does not fit
    have hlast := hkept (2 ^ 32 - 1) (by omega) (by omega)
    have hlt := (freeLink size (2 ^ 32 - 1)).toNat_lt
    omega
  · intro hsize i _ hi
    rw [freeLink, if_pos hi]
    exact PoolOrderBook.toNat_ofNat_of_lt (by omega)

namespace PoolOrderBook
variable {b : PoolOrderBook} {o : Order} {out : List Trade} {i : UInt32} {id : OrderId}

/-- The slot that `allocateNode` returns has a number and holds no order that rests; if the pool
    grows for it, all slot numbers keep their values. -/
structure AllocatesFresh (b : PoolOrderBook) (o : Order) : Prop where
  valid : (b.allocateNode o).1 ≠ invalidIdx
  fresh : ∀ id, b.orderIndex.find? id ≠ some (b.allocateNode o).1
  grown : b.freeHead = invalidIdx →
    CastKept b.poolCapacity ∧ LinksKept b.poolCapacity b.grow.poolCapacity

/-- The order of a submission that comes to rest, and the pool in which it is given its slot. -/
def comesToRest (b : PoolOrderBook) (o : Order) (out : List Trade) :
    Option (PoolOrderBook × Order) :=
  if b.Checks o ∧ (b.matched o out).incoming.remainingQuantity ≠ 0 ∧
    (b.matched o out).incoming.type = .limit
  then some ((b.matched o out).book, (b.matched o out).incoming)
  else none

/-- A submission allocates a slot for the order that comes to rest, and for no other. -/
theorem submitOrder_comesToRest (b : PoolOrderBook) (o : Order) (out : List Trade) :
    (b.submitOrder o out).2.2 =
      match b.comesToRest o out with
      | some (b₁, o₁) => b₁.rest o₁
      | none => if b.Checks o then (b.matched o out).book else b := by
  rw [submitOrder_of_checks, comesToRest]
  by_cases hc : b.Checks o
  · by_cases hrest : (b.matched o out).incoming.remainingQuantity ≠ 0 ∧
      (b.matched o out).incoming.type = .limit
    · rw [if_pos hc, if_pos hrest, if_pos ⟨hc, hrest⟩]
    · rw [if_pos hc, if_neg hrest, if_neg fun h => hrest h.2]
      exact (if_pos hc).symm
  · rw [if_neg hc, if_neg fun h => hc h.1]
    exact (if_neg hc).symm

/-- The casts and the allocation of a call are right. -/
def SlotsValid (b : PoolOrderBook) : Call → Prop
  | .submit o out => ∀ b₁ o₁, b.comesToRest o out = some (b₁, o₁) → b₁.AllocatesFresh o₁
  | .cancel _ => True
  | .clear => LinksKept 0 b.poolCapacity

/-- The call takes a pool of more than `2 ^ 31` slots beyond its numbers: what is left of a limit
    order comes to rest when as many orders rest as there are numbered slots. -/
def Outgrows (b : PoolOrderBook) : Call → Prop
  | .submit o _ => 2 ^ 31 < b.poolCapacity ∧ b.book.Accepts o ∧
      ((b.book.fillOf o).left ≠ 0 ∧ o.type = .limit) ∧
      (b.book.setSide o.side.opp (b.book.fillOf o).rest).orders.length =
        min maxSlots b.poolCapacity
  | .cancel _ | .clear => False

/-! ### The book of a pool and of its trimmed copy -/

theorem Inv.book_trim (h : b.trim.Inv) : b.trim.book = b.book := by
  have hslots : ∀ s, ∀ e ∈ (b.levels s).entries, b.trim.levelSlots e.2 = b.levelSlots e.2 := by
    intro s e he
    have hmem : e ∈ (b.trim.levels s).entries := by rwa [levels_trim]
    have hrange : ∀ i ∈ b.trim.levelSlots e.2, i.toNat < b.trim.nodes.length := fun i hi =>
      h.shape.range_of_mem (.inr (.inr ⟨s, Shape.levelSlots_subset hmem hi⟩))
    have hlevel : b.LevelInv s e.1 e.2 (b.trim.levelSlots e.2) :=
      (h.shape.level s e hmem).congr fun i hi =>
        (node_trim (h.shape.ne_invalid (hrange i hi))).symm
    refine (hlevel.levelSlots_eq fun i hi => ?_).symm
    exact (hrange i hi).trans_le (List.length_take_le' ..)
  have hqueued : ∀ s, b.trim.queued s = b.queued s := fun s => by
    rw [queued, queued, levels_trim, List.flatMap_congr (hslots s)]
  funext s
  rw [book, book, resting, resting, hqueued]
  refine map_order_congr fun i hi => order_trim (h.shape.ne_invalid ?_)
  exact h.shape.range_of_mem (.inr (.inr ⟨s, by rwa [hqueued]⟩))

/-! ### Growth -/

theorem Inv.growTo {n : ℕ} (h : b.Inv) (hfull : b.freeHead = invalidIdx)
    (hlt : b.poolCapacity < n) (hn : n < 2 ^ 32) :
    (b.growTo n).Inv ∧ (b.growTo n).book = b.book := by
  obtain ⟨hs, -, hq⟩ := h.shape.growTo (h.shape.freeHead_eq_invalid_iff.mp hfull) hlt hn
  have horder : ∀ s, ∀ i ∈ b.queued s, (b.growTo n).order i = b.order i := by
    intro s i hi
    rw [order, node_growTo n (h.shape.range_of_mem (.inr (.inr ⟨s, hi⟩))), order]
  refine ⟨⟨hs, ?_, fun t e he => ?_⟩, ?_⟩
  · refine h.indexed.keep (congrArg₂ _ (hq .buy) (hq .sell)) (fun i hi => ?_) rfl
    obtain ⟨s, his⟩ := b.exists_queued hi
    rw [horder s i his]
  · rw [levels_growTo] at he
    exact h.noEmptyLevel t e he
  · funext s
    rw [book, book, resting, resting, hq]
    exact map_order_congr (horder s)

/-- Resting in a full pool is resting in the grown pool. -/
theorem rest_grow (hfull : b.freeHead = invalidIdx) (hgrown : b.grow.freeHead ≠ invalidIdx)
    (o : Order) : b.rest o = b.grow.rest o := by
  rw [rest_eq, rest_eq, allocateNode_eq, allocateNode_eq, if_pos hfull, if_neg hgrown]

theorem capacity_rest_of_free (hfree : b.freeHead ≠ invalidIdx) (o : Order) :
    (b.rest o).poolCapacity = b.poolCapacity := by
  rw [rest_eq, poolCapacity, length_restAt, allocateNode_eq, if_neg hfree]
  exact length_modifyNode _

/-- A pool of up to `2 ^ 31` slots can grow: the new slots have numbers, but for the last one of
    `2 ^ 32`. -/
theorem Inv.rest_of_full (h : b.Inv) (hfull : b.freeHead = invalidIdx)
    (hcap : b.poolCapacity ≤ 2 ^ 31) (hnew : b.orderIndex.find? o.orderId = none) :
    (b.rest o).trim.Inv ∧ (b.rest o).trim.book = b.book.rest o ∧
      (b.rest o).poolCapacity ≤ 2 ^ 32 := by
  have hfits : b.Fits := by
    rw [Fits]
    omega
  have hsize : Shape.grownSize b.poolCapacity ≤ 2 ^ 32 := by
    rw [Shape.grownSize]
    split_ifs <;> omega
  have hlt := Shape.lt_grownSize b.poolCapacity
  have hhead : b.grow.freeHead ≠ invalidIdx := by
    intro he
    have hval := congrArg UInt32.toNat he
    have hcast : b.grow.freeHead.toNat = b.poolCapacity := toNat_ofNat_of_lt hfits
    have hinv : invalidIdx.toNat = 2 ^ 32 - 1 := rfl
    omega
  have htrim : b.grow.trim = b.growTo (min maxSlots (Shape.grownSize b.poolCapacity)) := by
    rw [grow_eq]
    exact trim_growTo hfits hsize
  have hmin : b.poolCapacity < min maxSlots (Shape.grownSize b.poolCapacity) := by
    rw [maxSlots]
    omega
  obtain ⟨hinv, hbook⟩ := h.growTo hfull hmin (by rw [maxSlots]; omega)
  rw [← htrim] at hinv hbook
  have hcap' : (b.grow.trim.rest o).poolCapacity < 2 ^ 32 := by
    rw [trim_rest hhead, capacity_trim, maxSlots]
    omega
  obtain ⟨r1, r2⟩ := rest_spec hinv hnew hcap'
  rw [rest_grow hfull hhead, ← trim_rest hhead]
  refine ⟨r1, by rw [r2, hbook], ?_⟩
  rw [capacity_rest_of_free hhead, poolCapacity, Shape.length_grow]
  exact hsize

/-! ### Allocation -/

/-- While a slot is free, that slot is handed out. -/
theorem Inv.allocatesFresh_of_free (h : b.trim.Inv) (hfree : b.freeHead ≠ invalidIdx) :
    b.AllocatesFresh o := by
  have hidx : (b.allocateNode o).1 = b.freeHead := by rw [allocateNode_eq, if_neg hfree]
  have hmem : b.freeHead ∈ b.trim.freeSlots := by
    have hstart : b.freeHead = b.trim.freeSlots.head?.getD invalidIdx := h.shape.free.start
    cases hfs : b.trim.freeSlots with
    | nil =>
      rw [hfs] at hstart
      exact absurd hstart hfree
    | cons x xs =>
      rw [hfs] at hstart
      rw [hstart]
      exact List.mem_cons_self ..
  refine ⟨by rwa [hidx], fun id hf => ?_, fun hfull => absurd hfull hfree⟩
  rw [hidx] at hf
  exact h.notMem_freeSlots (h.ne_invalid_of_find hf).1 hmem

/-- In a full pool the first of the new slots is handed out; its number, and those of the others,
    keep their values up to `2 ^ 31` slots. -/
theorem Inv.allocatesFresh_of_full (h : b.trim.Inv) (hfull : b.freeHead = invalidIdx) :
    b.AllocatesFresh o ↔ b.poolCapacity ≤ 2 ^ 31 := by
  have hgrown : b.grow.poolCapacity = Shape.grownSize b.poolCapacity := Shape.length_grow
  constructor
  · rintro ⟨-, -, hkept⟩
    obtain ⟨hcast, hlinks⟩ := hkept hfull
    have hlt : b.poolCapacity < 2 ^ 32 := hcast ▸ (UInt32.ofNat b.poolCapacity).toNat_lt
    have hsize := (linksKept_iff hlt).mp hlinks
    rw [hgrown, Shape.grownSize] at hsize
    split_ifs at hsize <;> omega
  · intro hsmall
    have hfits : b.Fits := by
      rw [Fits]
      omega
    rw [trim_of_fits hfits] at h
    have hcast : CastKept b.poolCapacity := toNat_ofNat_of_lt hfits
    have hidx : (b.allocateNode o).1.toNat = b.poolCapacity := by
      rw [allocateNode_eq, if_pos hfull]
      exact hcast
    refine ⟨fun he => ?_, fun id hf => ?_, fun _ => ⟨hcast, (linksKept_iff hfits).mpr ?_⟩⟩
    · have hval : invalidIdx.toNat = 2 ^ 32 - 1 := rfl
      rw [he] at hidx
      omega
    · obtain ⟨s, his⟩ := b.exists_queued (h.ne_invalid_of_find hf).1
      have hrange := h.shape.range_of_mem (.inr (.inr ⟨s, his⟩))
      rw [hidx] at hrange
      exact lt_irrefl _ hrange
    · rw [hgrown, Shape.grownSize]
      split_ifs <;> omega

/-- A full pool of `2 ^ 32` slots hands out slot 0, where an order rests. -/
theorem Inv.allocates_live (h : b.trim.Inv) (hcap : b.poolCapacity = 2 ^ 32)
    (hfull : b.freeHead = invalidIdx) :
    (b.allocateNode o).1 = 0 ∧ ∃ id, b.orderIndex.find? id = some 0 := by
  have hidx : (b.allocateNode o).1 = UInt32.ofNat b.poolCapacity := by
    rw [allocateNode_eq, if_pos hfull]
    rfl
  have hone := h.free_or_live 0
  rw [capacity_trim, hcap, h.shape.freeHead_eq_invalid_iff.mp hfull, if_pos (by decide)] at hone
  have hlive : (0 : UInt32) ∈ b.trim.live := List.count_pos_iff.mp (by simpa using hone.ge)
  refine ⟨by rw [hidx, hcap]; rfl, (b.trim.order 0).orderId, ?_⟩
  exact (h.indexed.find _ 0).mpr ⟨hlive, rfl⟩

/-! ### Capacity while matching -/

theorem capacity_matchLevelStep {a : Side} {p : Price} {m m' : Matching PoolOrderBook}
    (h : matchLevelStep a p m = some m') : m'.book.poolCapacity = m.book.poolCapacity := by
  rw [matchLevelStep] at h
  dsimp only at h
  split_ifs at h <;> cases h <;> simp [poolCapacity, setLevel, setOrder]

theorem capacity_matchStep {a : Side} {m m' : Matching PoolOrderBook}
    (h : matchStep a m = some m') : m'.book.poolCapacity = m.book.poolCapacity := by
  rw [matchStep] at h
  cases hnext : nextLevel a m with
  | none => rw [hnext] at h; cases h
  | some p =>
    have hlevel : (matchLevel a p m).book.poolCapacity = m.book.poolCapacity :=
      (loop_iterates _ m).invariant (I := fun m' => m'.book.poolCapacity = m.book.poolCapacity)
        (fun _ _ hm hstep => (capacity_matchLevelStep hstep).trans hm) rfl
    rw [hnext] at h
    dsimp only at h
    split_ifs at h <;> cases h
    · rw [← hlevel, eraseLevel, poolCapacity, nodes_setLevels, poolCapacity]
    · exact hlevel

theorem capacity_matched (b : PoolOrderBook) (o : Order) (out : List Trade) :
    (b.matched o out).book.poolCapacity = b.poolCapacity :=
  (loop_iterates _ (b.entry o out)).invariant (I := fun m => m.book.poolCapacity = b.poolCapacity)
    (fun _ _ hm hstep => (capacity_matchStep hstep).trans hm) rfl

/-! ### Calls -/

/-- What a run keeps: up to `2 ^ 32` slots, of which those with numbers are in order. -/
def Numbered (b : PoolOrderBook) : Prop := b.trim.Good ∧ b.poolCapacity ≤ 2 ^ 32

/-- A submission that neither is rejected nor ends in the matching. -/
theorem Numbered.comesToRest_iff (h : b.Numbered) : (∃ e, b.comesToRest o out = some e) ↔
    b.book.Accepts o ∧ (b.book.fillOf o).left ≠ 0 ∧ o.type = .limit := by
  obtain ⟨⟨hinv, -⟩, -⟩ := h
  obtain ⟨-, -, hinc, -⟩ := matched_spec hinv o out
  have hchecks : b.Checks o ↔ b.book.Accepts o := hinv.book_trim ▸ hinv.checks_iff
  rw [trim_matched hinv, hinv.book_trim] at hinc
  have hinc' : (b.matched o out).incoming =
      { o with remainingQuantity := (b.book.fillOf o).left } := hinc
  have hiff : b.Checks o ∧ (b.matched o out).incoming.remainingQuantity ≠ 0 ∧
      (b.matched o out).incoming.type = .limit ↔
      b.book.Accepts o ∧ (b.book.fillOf o).left ≠ 0 ∧ o.type = .limit := by
    rw [hchecks, hinc']
  rw [comesToRest, ← hiff]
  split_ifs with hc
  · exact iff_of_true ⟨_, rfl⟩ hc
  · exact iff_of_false (fun ⟨_, he⟩ => nomatch he) hc

/-- The pool in which the order is given its slot. -/
theorem Numbered.of_comesToRest (h : b.Numbered) {b₁ : PoolOrderBook} {o₁ : Order}
    (hrest : b.comesToRest o out = some (b₁, o₁)) :
    b₁.trim.Inv ∧ b₁.poolCapacity = b.poolCapacity ∧
    b₁.orderIndex.find? o₁.orderId = none ∧
    b₁.trim.book.rest o₁ = b.book.accept o ∧
    (b₁.freeHead = invalidIdx ↔
      (b.book.setSide o.side.opp (b.book.fillOf o).rest).orders.length =
        min maxSlots b.poolCapacity) := by
  have hdoes := h.comesToRest_iff.mp ⟨_, hrest⟩
  obtain ⟨⟨hinv, -⟩, -⟩ := h
  obtain ⟨hb, -, hinc, hbook⟩ := matched_spec hinv o out
  rw [trim_matched hinv] at hb hinc hbook
  rw [hinv.book_trim] at hinc hbook
  rw [comesToRest] at hrest
  split_ifs at hrest
  obtain ⟨rfl, rfl⟩ := Prod.mk.inj (Option.some.inj hrest)
  have hcap := capacity_matched b o out
  have hinc' : (b.matched o out).incoming =
      { o with remainingQuantity := (b.book.fillOf o).left } := hinc
  have hbook' : (b.matched o out).book.trim.book =
      b.book.setSide o.side.opp (b.book.fillOf o).rest := hbook
  have hinv₁ : (b.matched o out).book.trim.Inv := hb.inv
  refine ⟨hinv₁, hcap, ?_, ?_, ?_⟩
  · refine hinv₁.index_none_iff.mpr ?_
    rw [hbook', hinc']
    exact Book.find?_fill_none hdoes.1.2.2
  · rw [hbook', hinc', Book.accept]
    exact (if_pos hdoes.2).symm
  · have hfull := hinv₁.freeHead_eq_invalid_iff
    rwa [hbook', capacity_trim, hcap] at hfull

theorem Numbered.submit_iff (h : b.Numbered) :
    b.SlotsValid (.submit o out) ↔ ¬ b.Outgrows (.submit o out) := by
  rw [SlotsValid, Outgrows]
  cases hrest : b.comesToRest o out with
  | none =>
    refine iff_of_true (fun _ _ he => nomatch he) fun hgrows => ?_
    obtain ⟨e, he⟩ := h.comesToRest_iff.mpr ⟨hgrows.2.1, hgrows.2.2.1⟩
    rw [hrest] at he
    cases he
  | some e =>
    obtain ⟨b₁, o₁⟩ := e
    have hdoes := h.comesToRest_iff.mp ⟨_, hrest⟩
    obtain ⟨hinv₁, hcap, -, -, hfull⟩ := h.of_comesToRest hrest
    have hvalid : (∀ b₂ o₂, some (b₁, o₁) = some (b₂, o₂) → b₂.AllocatesFresh o₂) ↔
        b₁.AllocatesFresh o₁ := by
      constructor
      · intro hall
        exact hall b₁ o₁ rfl
      · rintro hfresh b₂ o₂ he
        cases he
        exact hfresh
    rw [hvalid, ← hfull]
    by_cases hfree : b₁.freeHead = invalidIdx
    · rw [hinv₁.allocatesFresh_of_full hfree, hcap, ← not_lt]
      refine not_congr ⟨fun hlt => ⟨hlt, hdoes.1, hdoes.2, hfree⟩, fun hgrows => hgrows.1⟩
    · exact iff_of_true (hinv₁.allocatesFresh_of_free hfree) fun hgrows => hfree hgrows.2.2.2

/-- The casts and the allocation of one call are right iff it does not outgrow the numbers. -/
theorem Numbered.slotsValid_iff (h : b.Numbered) : ∀ c, b.SlotsValid c ↔ ¬ b.Outgrows c
  | .submit _ _ => h.submit_iff
  | .cancel _ => iff_of_true trivial not_false
  | .clear => iff_of_true ((linksKept_iff (by omega)).mpr h.2) not_false

theorem Numbered.submit (h : b.Numbered) (hc : ¬ b.Outgrows (.submit o out)) :
    (b.submitOrder o out).2.2.Numbered := by
  rw [submitOrder_comesToRest]
  cases hrest : b.comesToRest o out with
  | some e =>
    obtain ⟨b₁, o₁⟩ := e
    have hdoes := h.comesToRest_iff.mp ⟨_, hrest⟩
    obtain ⟨hinv₁, hcap, hnew, hbook, hfull⟩ := h.of_comesToRest hrest
    have hsane : (b.book.accept o).Sane := by
      have hsane₀ := h.1.2
      rw [h.1.1.book_trim] at hsane₀
      exact hsane₀.accept hdoes.1
    rw [← hbook] at hsane
    dsimp only
    by_cases hfree : b₁.freeHead = invalidIdx
    · have hsmall : b₁.poolCapacity ≤ 2 ^ 31 := by
        rw [hcap]
        by_contra hlarge
        exact hc ⟨by omega, hdoes.1, hdoes.2, hfull.mp hfree⟩
      have htrim : b₁.trim = b₁ := trim_of_fits (by rw [Fits]; omega)
      rw [htrim] at hinv₁ hsane
      obtain ⟨r1, r2, r3⟩ := hinv₁.rest_of_full hfree hsmall hnew
      exact ⟨⟨r1, r2 ▸ hsane⟩, r3⟩
    · have hfits : (b₁.trim.rest o₁).poolCapacity < 2 ^ 32 := by
        rw [trim_rest hfree, capacity_trim, maxSlots]
        omega
      obtain ⟨r1, r2⟩ := rest_spec hinv₁ hnew hfits
      rw [trim_rest hfree] at r1 r2
      refine ⟨⟨r1, r2 ▸ hsane⟩, ?_⟩
      rw [capacity_rest_of_free hfree, hcap]
      exact h.2
  | none =>
    dsimp only
    split_ifs
    · obtain ⟨hb, -, -, hbook⟩ := matched_spec h.1.1 o out
      rw [trim_matched h.1.1] at hb hbook
      have hbook' : (b.matched o out).book.trim.book =
          b.trim.book.setSide o.side.opp (b.trim.book.fillOf o).rest := hbook
      refine ⟨⟨hb.inv, hbook' ▸ h.1.2.matched o⟩, ?_⟩
      rw [capacity_matched]
      exact h.2
    · exact h

/-- A call that does not outgrow the numbers keeps the pool numbered. -/
theorem Numbered.call (h : b.Numbered) : ∀ {c}, ¬ b.Outgrows c → (b.call c).2.Numbered
  | .submit _ _, hc => h.submit hc
  | .cancel id, _ => by
    have hcancel := trim_cancelOrder h.1.1 id
    have hinv := (cancelOrder_spec h.1.1 id).1
    have hbook := book_cancelOrder h.1.1 id
    rw [hcancel] at hinv hbook
    refine ⟨⟨hinv, hbook ▸ h.1.2.cancel id⟩, ?_⟩
    exact (capacity_cancelOrder id).trans_le h.2
  | .clear, _ => by
    obtain ⟨hinv, hbook⟩ := inv_clear h.1.1
    rw [trim_clear h.2] at hinv hbook
    exact ⟨⟨hinv, hbook ▸ .empty⟩, capacity_clear.trans_le h.2⟩

theorem numbered_ctor {n : ℕ} (h : n ≤ 2 ^ 32) : (ctor n).Numbered := by
  have hgood := good_ctor (n := min maxSlots n) (fits_ctor.mpr (by rw [maxSlots]; omega))
  rw [← trim_ctor h] at hgood
  refine ⟨hgood, ?_⟩
  rw [poolCapacity, ctor, List.length_map, List.length_range]
  exact h

/-! ### Runs -/

/-- From a numbered state on, all calls are right iff none outgrows the numbers. -/
theorem slotsValid_history_iff : ∀ (calls : List Call) {b : PoolOrderBook}, b.Numbered →
    ((∀ e ∈ history call b calls, e.before.SlotsValid e.call) ↔
      ∀ e ∈ history call b calls, ¬ e.before.Outgrows e.call)
  | [], _, _ => ⟨fun _ _ he => (nomatch he), fun _ _ he => (nomatch he)⟩
  | c :: cs, b, h => by
    rw [history, List.forall_mem_cons, List.forall_mem_cons]
    dsimp only
    rw [h.slotsValid_iff c]
    exact and_congr_right fun hc => slotsValid_history_iff cs (h.call hc)

/-- In a run, slot numbers keep their values and every order that comes to rest gets a slot of its
    own iff the pool starts with up to `2 ^ 32` slots and no call outgrows the numbers. -/
theorem slots_valid_iff (initialCapacity : ℕ) (calls : List Call) :
    (LinksKept 0 initialCapacity ∧
      ∀ e ∈ history call (ctor initialCapacity) calls, e.before.SlotsValid e.call) ↔
    initialCapacity ≤ 2 ^ 32 ∧
      ∀ e ∈ history call (ctor initialCapacity) calls, ¬ e.before.Outgrows e.call := by
  rw [linksKept_iff (by omega)]
  exact and_congr_right fun h => slotsValid_history_iff calls (numbered_ctor h)

/-- The constructor of a pool of `2 ^ 32 + 1` slots links slot `2 ^ 32 - 1` to slot 0. -/
theorem slots_wrap : ¬ ∀ initialCapacity calls, LinksKept 0 initialCapacity ∧
    ∀ e ∈ history call (ctor initialCapacity) calls, e.before.SlotsValid e.call := by
  intro hall
  obtain ⟨hlinks, -⟩ := hall 4294967297 []
  have hlast := hlinks 4294967295 (by omega) (by omega)
  exact absurd hlast (by decide)

end PoolOrderBook

end Titan
