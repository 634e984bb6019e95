import Titan.Engine.Flush
import Titan.Engine.PoolSpec

/-! A market order in slices.

    A market order never rests, so it can be sent in parts under its own id. The parts take from each
    maker together what the whole would take at once, and leave a pool behind that goes on as the other
    one does. -/

namespace Titan
open Schemes

/-- The order with another size. -/
def Order.sized (o : Order) (q : Quantity) : Order :=
  { o with initialQuantity := q, remainingQuantity := 0 }

section Fill
variable {o : Order}

theorem fill_sized (r q : Quantity) (L : List Order) : fill (o.sized r) q L = fill o q L := by
  induction L generalizing q with
  | nil => rfl
  | cons m ms ih =>
    rw [fill, fill, ih]
    rfl

/-- Taking `a` and then `b` leaves what taking `a + b` leaves. -/
theorem rest_slices {a b : Quantity} (hab : a.toNat + b.toNat < 2 ^ 32) (L : List Order) :
    (fill o b (fill o a L).rest).rest = (fill o (a + b) L).rest := by
  induction L generalizing a with
  | nil => rfl
  | cons m ms ih =>
    have hsum : (a + b).toNat = a.toNat + b.toNat := by
      rw [UInt32.toNat_add]
      omega
    by_cases hr : o.Reaches m.price
    swap
    · rw [fill_stop o (.inr hr), fill_stop o (.inr hr), fill_stop o (.inr hr)]
    by_cases ha : a = 0
    · rw [ha, fill_zero, UInt32.zero_add]
    have hgo : ¬ (a = 0 ∨ ¬ o.Reaches m.price) := by tauto
    have hgo' : ¬ (a + b = 0 ∨ ¬ o.Reaches m.price) := by
      rintro (h0 | h0)
      · refine ha (UInt32.toNat_inj.mp ?_)
        rw [h0] at hsum
        simp only [UInt32.toNat_zero] at hsum ⊢
        omega
      · exact h0 hr
    by_cases hle : m.remainingQuantity ≤ a
    · -- the first maker is filled by the first slice
      have hle₁ := UInt32.le_iff_toNat_le.mp hle
      have hle' : m.remainingQuantity ≤ a + b := by
        rw [UInt32.le_iff_toNat_le]
        omega
      have hless : a + b - m.remainingQuantity = a - m.remainingQuantity + b := by grind
      rw [fill_full o hgo hle, fill_full o hgo' hle', hless]
      refine ih ?_
      rw [UInt32.toNat_sub_of_le _ _ hle]
      omega
    have hlt := UInt32.lt_iff_toNat_lt.mp (UInt32.not_le.mp hle)
    have hleft : (m.remainingQuantity - a).toNat = m.remainingQuantity.toNat - a.toNat :=
      UInt32.toNat_sub_of_le _ _ (UInt32.le_of_lt (UInt32.not_le.mp hle))
    rw [fill_part o hgo hle]
    by_cases hb : b = 0
    · rw [hb, fill_zero, UInt32.add_zero, fill_part o hgo hle]
    set m' : Order := { m with remainingQuantity := m.remainingQuantity - a } with hm'
    have hrem : m'.remainingQuantity = m.remainingQuantity - a := rfl
    have hgob : ¬ (b = 0 ∨ ¬ o.Reaches m'.price) := by
      have hprice : m'.price = m.price := rfl
      rw [hprice]
      tauto
    by_cases hle' : m.remainingQuantity ≤ a + b
    · -- the second slice fills it
      have hle₂ := UInt32.le_iff_toNat_le.mp hle'
      have hfills : m'.remainingQuantity ≤ b := by
        rw [UInt32.le_iff_toNat_le, hrem]
        omega
      have hless : b - m'.remainingQuantity = a + b - m.remainingQuantity := by grind
      rw [fill_full o hgo' hle', fill_full o hgob hfills, hless]
    · have hmore := UInt32.lt_iff_toNat_lt.mp (UInt32.not_le.mp hle')
      have hpart : ¬ m'.remainingQuantity ≤ b := by
        rw [UInt32.le_iff_toNat_le, hrem]
        omega
      have hless : m.remainingQuantity - a - b = m.remainingQuantity - (a + b) := by grind
      rw [fill_part o hgo' hle', fill_part o hgob hpart]
      simp only [hm', hless]

end Fill

namespace Book
variable {k : Book} {o : Order} {a b q : Quantity} {s : Side} {p : Price}

/-- The book when `q` was taken by `o` from the other side. -/
def take (k : Book) (o : Order) (q : Quantity) : Book :=
  k.setSide o.side.opp (fill o q (k o.side.opp)).rest

theorem take_opp (k : Book) (o : Order) (q : Quantity) :
    k.take o q o.side.opp = (fill o q (k o.side.opp)).rest := setSide_self ..

theorem take_take (hab : a.toNat + b.toNat < 2 ^ 32) : (k.take o a).take o b = k.take o (a + b) := by
  refine ext_sides o.side.opp ?_ ?_
  · rw [take_opp, take_opp, take_opp, rest_slices hab]
  · rw [take, setSide_opp, take, setSide_opp, take, setSide_opp]

/-- An accepted market order takes, and nothing of it rests. -/
theorem submit_market (hm : o.type = .market) (hnew : k.find? o.orderId = none) (hq : q ≠ 0) :
    k.submit (o.sized q) = (true, (fill o q (k o.side.opp)).trades, k.take o q) := by
  have ha : k.Accepts (o.sized q) := ⟨hq, fun h => by simp [Order.sized, hm] at h, hnew⟩
  have hfill : k.fillOf (o.sized q) = fill o q (k o.side.opp) := fill_sized q q _
  have hno : ¬ ((k.fillOf (o.sized q)).left ≠ 0 ∧ (o.sized q).type = .limit) := by
    rintro ⟨-, h⟩
    simp [Order.sized, hm] at h
  rw [submit, if_pos ha, accept, if_neg hno, hfill]
  rfl

theorem find?_take (hnew : k.find? o.orderId = none) : (k.take o q).find? o.orderId = none := by
  have hfill : k.fillOf (o.sized q) = fill o q (k o.side.opp) := fill_sized q q _
  have hnone := find?_fill_none (o := o.sized q) hnew
  rwa [hfill] at hnone

/-- A level that is not emptied was not empty. -/
theorem queueAt_take (h : k.queueAt s p = []) : (k.take o q).queueAt s p = [] := by
  rw [queueAt, List.filter_eq_nil_iff] at h ⊢
  intro x hx
  rcases o.side.eq_or_eq_opp s with rfl | rfl
  · rw [take, setSide_of_opp] at hx
    exact h x hx
  · rw [take_opp] at hx
    obtain ⟨y, hy, hcore⟩ := List.mem_map.mp
      ((rest_suffix ..).subset (List.mem_map_of_mem (f := Order.core) hx))
    rw [← Order.price_of_core hcore]
    exact h y hy

end Book

/-- The slices of a market order as calls. -/
def slices (o : Order) (qs : List Quantity) : List Call := qs.map fun q => .submit (o.sized q) []

/-- All trades of a run whose calls bring no trades of their own. -/
def tradesOf (events : List (Event PoolOrderBook Call Reply)) : List Trade :=
  events.flatMap fun e => e.reply.outTrades

theorem soldBy_append (ts us : List Trade) (id : OrderId) :
    soldBy (ts ++ us) id = soldBy ts id + soldBy us id := by
  simp [soldBy, traded]

theorem tradedAt_append (ts us : List Trade) (p : Price) :
    tradedAt (ts ++ us) p = tradedAt ts p + tradedAt us p := by
  simp [tradedAt, traded]

namespace PoolOrderBook
variable {b b' : PoolOrderBook} {o : Order} {q : Quantity}

/-- The slices took `q` from the pool `b` with the trades `ts`, and left `b'`. -/
structure Took (o : Order) (q : Quantity) (b b' : PoolOrderBook) (ts : List Trade) : Prop where
  inv : b'.Inv
  book : b'.book = b.book.take o q
  capacity : b'.poolCapacity = b.poolCapacity
  volume : ∀ s p, b'.volumeAtPrice s p =
    if b'.book.queueAt s p = [] then 0 else b.volumeAtPrice s p
  sold : ∀ id, soldBy ts id + heldBy (b'.book o.side.opp) id = heldBy (b.book o.side.opp) id
  traded : ∀ p, tradedAt ts p + depthAt (b'.book o.side.opp) p = depthAt (b.book o.side.opp) p

/-- One slice, or the whole. -/
theorem Took.slice (h : b.Inv) (hm : o.type = .market) (hnew : b.book.find? o.orderId = none)
    (hq : q ≠ 0) : (b.call (.submit (o.sized q) [])).1.result = some true ∧
      Took o q b (b.call (.submit (o.sized q) [])).2
        (b.call (.submit (o.sized q) [])).1.outTrades := by
  have hmarket : ¬ (o.sized q).type = .limit := by simp [Order.sized, hm]
  have hcap : (b.call (.submit (o.sized q) [])).2.poolCapacity = b.poolCapacity := by
    rw [h.capacity_call, Book.capacityAfter, if_neg fun hx => hmarket hx.2.1.2]
  have hfit : (b.call (.submit (o.sized q) [])).2.Fits := hcap.trans_lt h.shape.capacity
  obtain ⟨hinv, hreply, hbook⟩ := call_spec h _ hfit
  have hcall : b.book.call (.submit (o.sized q) []) =
      (⟨some true, (fill o q (b.book o.side.opp)).trades⟩, b.book.take o q) := by
    rw [Book.call, Book.submit_market hm hnew hq]
    rfl
  rw [hcall] at hreply hbook
  dsimp only at hreply hbook
  refine ⟨by rw [hreply], hinv, hbook, hcap, fun s p => ?_, fun id => ?_, fun p => ?_⟩
  · have ha : b.book.Accepts (o.sized q) := ⟨hq, fun hx => hmarket hx.1, hnew⟩
    have hfill : b.book.fillOf (o.sized q) = fill o q (b.book o.side.opp) := fill_sized q q _
    have hlimit : ¬ (((b.book.fillOf (o.sized q)).left ≠ 0 ∧ (o.sized q).type = .limit) ∧
        s = (o.sized q).side ∧ (o.sized q).price = p) := fun hx => hmarket hx.1.2
    rw [volume_call h _ hfit, Book.countersAfter, if_pos ha, if_neg hlimit, UInt32.add_zero, hfill,
      hbook]
    rfl
  · rw [hreply, hbook, Book.take_opp]
    exact soldBy_add_heldBy ..
  · rw [hreply, hbook, Book.take_opp]
    exact tradedAt_add_depthAt ..

theorem Took.nothing (h : b.Inv) : Took o 0 b b [] where
  inv := h
  book := by
    rw [Book.take, fill_zero]
    exact (Function.update_eq_self ..).symm
  capacity := rfl
  volume s p := by
    split_ifs with hq
    · exact h.volume_of_empty hq
    · rfl
  sold id := by simp [soldBy]
  traded p := by simp [tradedAt]

theorem Took.trans {b₁ : PoolOrderBook} {q₁ : Quantity} {ts ts₁ : List Trade}
    (hsum : q.toNat + q₁.toNat < 2 ^ 32) (h : Took o q b b' ts) (h₁ : Took o q₁ b' b₁ ts₁) :
    Took o (q + q₁) b b₁ (ts ++ ts₁) where
  inv := h₁.inv
  book := by rw [h₁.book, h.book, Book.take_take hsum]
  capacity := h₁.capacity.trans h.capacity
  volume s p := by
    rw [h₁.volume, h.volume]
    by_cases hq : b'.book.queueAt s p = []
    · have hq₁ : b₁.book.queueAt s p = [] := by
        rw [h₁.book]
        exact Book.queueAt_take hq
      rw [if_pos hq, if_pos hq₁, if_pos hq₁]
    · rw [if_neg hq]
  sold id := by rw [soldBy_append, ← h.sold, ← h₁.sold, add_assoc]
  traded p := by rw [tradedAt_append, ← h.traded, ← h₁.traded, add_assoc]

/-- All slices one after the other. -/
theorem Took.all (hm : o.type = .market) : ∀ {qs : List Quantity} {b : PoolOrderBook} {q : Quantity},
    b.Inv → b.book.find? o.orderId = none → (∀ q ∈ qs, q ≠ 0) →
    (qs.map UInt32.toNat).sum = q.toNat →
    (∀ e ∈ history call b (slices o qs), e.reply.result = some true) ∧
      Took o q b (final call b (slices o qs)) (tradesOf (history call b (slices o qs)))
  | [], b, q, h, _, _, hsum => by
    obtain rfl : 0 = q := UInt32.toNat_inj.mp hsum
    exact ⟨nofun, .nothing h⟩
  | q₁ :: qs, b, q, h, hnew, hpos, hsum => by
    obtain ⟨hq₁, hqs⟩ := List.forall_mem_cons.mp hpos
    obtain ⟨hresult, htook⟩ := Took.slice h hm hnew hq₁
    have hlt := q.toNat_lt
    rw [List.map_cons, List.sum_cons] at hsum
    have hrest : (UInt32.ofNat (qs.map UInt32.toNat).sum).toNat = (qs.map UInt32.toNat).sum :=
      UInt32.toNat_ofNat_of_lt' (by rw [UInt32.size]; omega)
    have hnew₁ : (b.call (.submit (o.sized q₁) [])).2.book.find? o.orderId = none := by
      rw [htook.book]
      exact Book.find?_take hnew
    obtain ⟨hresults, hall⟩ := Took.all hm htook.inv hnew₁ hqs hrest.symm
    have hq : q = q₁ + UInt32.ofNat (qs.map UInt32.toNat).sum := by
      rw [← UInt32.toNat_inj, UInt32.toNat_add, hrest, hsum]
      omega
    rw [hq]
    refine ⟨List.forall_mem_cons.mpr ⟨hresult, hresults⟩, htook.trans ?_ hall⟩
    rw [hrest]
    omega

/-- However a market order is sliced, its slices are all accepted, take from each maker and at each
    price together what the whole takes, and leave a pool that no run of calls can tell from the one
    that the whole leaves. -/
theorem slices_whole (h : b.Reachable) (hm : o.type = .market)
    (hnew : b.hasOrder o.orderId = false) {qs : List Quantity} (hne : qs ≠ [])
    (hpos : ∀ q ∈ qs, q ≠ 0) (hsum : (qs.map UInt32.toNat).sum = q.toNat) :
    let events := history call b (slices o qs)
    let whole := b.submitOrder (o.sized q) []
    (∀ e ∈ events, e.reply.result = some true) ∧ whole.1 = true ∧
    (∀ id, soldBy (tradesOf events) id = soldBy whole.2.1 id) ∧
    (∀ p, tradedAt (tradesOf events) p = tradedAt whole.2.1 p) ∧
    Indistinct (final call b (slices o qs)) whole.2.2 ∧
    ∀ calls, (∀ e ∈ history call (final call b (slices o qs)) calls, e.after.Fits) →
      List.Forall₂ (fun e f => e.call = f.call ∧ e.reply = f.reply ∧ Indistinct e.before f.before ∧
          Indistinct e.after f.after)
        (history call (final call b (slices o qs)) calls) (history call whole.2.2 calls) := by
  intro events whole
  obtain ⟨hinv, -⟩ := h.good
  have hnone : b.book.find? o.orderId = none := by
    rw [hinv.hasOrder_eq] at hnew
    simpa using hnew
  have hq : q ≠ 0 := by
    rintro rfl
    rw [UInt32.toNat_zero, List.sum_eq_zero_iff] at hsum
    obtain ⟨q, hmem⟩ := List.exists_mem_of_ne_nil qs hne
    exact hpos q hmem (UInt32.toNat_inj.mp (hsum _ (List.mem_map_of_mem hmem)))
  obtain ⟨hresults, hsliced⟩ := Took.all hm hinv hnone hpos hsum
  obtain ⟨hresult, hwhole⟩ := Took.slice hinv hm hnone hq
  have hbook : (final call b (slices o qs)).book = whole.2.2.book :=
    hsliced.book.trans hwhole.book.symm
  have htwin : Twin (final call b (slices o qs)) whole.2.2 := by
    refine ⟨hsliced.inv, hwhole.inv, hbook, ?_⟩
    funext s p
    rw [hsliced.volume, hbook]
    exact (hwhole.volume s p).symm
  have hcap : whole.2.2.poolCapacity = (final call b (slices o qs)).poolCapacity :=
    hwhole.capacity.trans hsliced.capacity.symm
  refine ⟨hresults, Option.some.inj hresult, fun id => ?_, fun p => ?_, htwin.indistinct, ?_⟩
  · have h₁ := hsliced.sold id
    have h₂ := hwhole.sold id
    rw [hsliced.book] at h₁
    rw [hwhole.book] at h₂
    exact Nat.add_right_cancel (h₁.trans h₂.symm)
  · have h₁ := hsliced.traded p
    have h₂ := hwhole.traded p
    rw [hsliced.book] at h₁
    rw [hwhole.book] at h₂
    exact Nat.add_right_cancel (h₁.trans h₂.symm)
  · intro calls hfit
    exact htwin.forever calls hfit (htwin.fits hcap hfit)

theorem slices_whole_close :
    let o : Order := { orderId := 8, side := .sell, type := .market }
    let sliced := final call tradingDayClose (slices o [4, 3, 2])
    let whole := (tradingDayClose.submitOrder (o.sized 9) []).2.2
    let calls := [Call.submit { orderId := 9, price := 99, initialQuantity := 3, side := .sell } []]
    ((∀ e ∈ history call tradingDayClose (slices o [4, 3, 2]), e.reply.result = some true) ∧
      (tradingDayClose.submitOrder (o.sized 9) []).1 = true) ∧
    tradedAt (tradesOf (history call tradingDayClose (slices o [4, 3, 2]))) 100 = 9 ∧
    (∀ id, soldBy (tradesOf (history call tradingDayClose (slices o [4, 3, 2]))) id =
      soldBy (tradingDayClose.submitOrder (o.sized 9) []).2.1 id) ∧
    Indistinct sliced whole ∧
    List.Forall₂ (fun e f => e.call = f.call ∧ e.reply = f.reply ∧ Indistinct e.before f.before ∧
        Indistinct e.after f.after) (history call sliced calls) (history call whole calls) := by
  intro o sliced whole calls
  have hfit : ∀ e ∈ history call sliced calls, e.after.Fits := by decide
  have h := @slices_whole tradingDayClose o 9 tradingDayClose_reachable rfl (by decide) [4, 3, 2]
    (by decide) (by simp) (by decide)
  refine ⟨⟨h.1, h.2.1⟩, ?_, h.2.2.1, h.2.2.2.2.1, ?_⟩
  · rw [h.2.2.2.1]
    decide
  · exact h.2.2.2.2.2 calls hfit

end PoolOrderBook

end Titan
