import Titan.Engine.Views
import Titan.Engine.Volume

/-! A pool that was cleared cannot be told from a new one.

    The book decides all answers but the level counters, and it decides how a call changes those. Two
    pools with one book and the same counters therefore stay alike, wherever their orders are stored.
    A cleared pool and a new one of any capacity are two such pools. -/

namespace Titan
open Schemes

/-- The level counters after a call, by those before it. A counter goes with its level, and matching
    leaves the counter of a level that stays alone. -/
def Book.countersAfter (k : Book) (v : Side → Price → Quantity) (c : Call) (s : Side) (p : Price) :
    Quantity :=
  match c with
  | .submit o _ =>
    if k.Accepts o then
      (if (k.setSide o.side.opp (k.fillOf o).rest).queueAt s p = [] then 0 else v s p) +
        if ((k.fillOf o).left ≠ 0 ∧ o.type = .limit) ∧ s = o.side ∧ o.price = p
        then (k.fillOf o).left else 0
    else v s p
  | .cancel id =>
    if (k.cancel id).2.queueAt s p = [] then 0
    else
      match k.find? id with
      | none => v s p
      | some o => v s p - if s = o.side ∧ o.price = p then o.remainingQuantity else 0
  | .clear => 0

namespace PoolOrderBook
variable {b b' : PoolOrderBook} {o : Order} {s : Side} {p : Price} {id : OrderId}

theorem volume_matched_eq (h : b.Inv) (o : Order) (out : List Trade) (s : Side) (p : Price) :
    (b.matched o out).book.volumeAtPrice s p =
      if (b.book.setSide o.side.opp (b.book.fillOf o).rest).queueAt s p = [] then 0
      else b.volumeAtPrice s p := by
  obtain ⟨hb, -, -, hbook⟩ := matched_spec h o out
  rw [← hbook]
  split_ifs with hq
  · exact hb.inv.volume_of_empty hq
  · rcases o.side.eq_or_eq_opp s with rfl | rfl
    · exact volumeAtPrice_congr hb.run.ownLevels p
    · exact volume_matched h out hq

theorem volume_submitOrder (h : b.Inv) (o : Order) (out : List Trade)
    (hfit : (b.submitOrder o out).2.2.Fits) (s : Side) (p : Price) :
    (b.submitOrder o out).2.2.volumeAtPrice s p =
      b.book.countersAfter b.volumeAtPrice (.submit o out) s p := by
  obtain ⟨hb, -, hinc, hbook⟩ := matched_spec h o out
  rw [submitOrder_eq h, hinc] at hfit ⊢
  rw [Book.countersAfter, ← volume_matched_eq h o out]
  by_cases ha : b.book.Accepts o
  · rw [if_pos ha] at hfit ⊢
    rw [if_pos ha]
    by_cases hrest : (b.book.fillOf o).left ≠ 0 ∧ o.type = .limit
    · rw [if_pos hrest] at hfit ⊢
      rcases o.side.eq_or_eq_opp s with rfl | rfl
      · refine (volume_rest hb.inv hfit p).trans ?_
        simp [hrest]
      · refine (volume_rest_opp _ _ p).trans ?_
        simp
    · rw [if_neg hrest, if_neg fun hx => hrest hx.1, UInt32.add_zero]
  · rw [if_neg ha, if_neg ha]

theorem volume_cancelOrder (h : b.Inv) (id : OrderId) (s : Side) (p : Price) :
    (b.cancelOrder id).2.volumeAtPrice s p =
      b.book.countersAfter b.volumeAtPrice (.cancel id) s p := by
  have hinv := (cancelOrder_spec h id).1
  have hbook := book_cancelOrder h id
  rw [Book.countersAfter]
  split_ifs with hq
  · exact hinv.volume_of_empty (hbook ▸ hq)
  · rw [← h.getOrder_eq, getOrder]
    cases hf : b.orderIndex.find? id with
    | none => rw [cancelOrder, hf]; rfl
    | some i => exact volume_cancelled h hf (hbook ▸ hq)

/-- The book and the level counters decide the level counters after a call. -/
theorem volume_call (h : b.Inv) (c : Call) (hfit : (b.call c).2.Fits) :
    (b.call c).2.volumeAtPrice = b.book.countersAfter b.volumeAtPrice c := by
  funext s p
  cases c with
  | submit o out => exact volume_submitOrder h o out hfit s p
  | cancel id => exact volume_cancelOrder h id s p
  | clear =>
    obtain ⟨hinv, hbook⟩ := inv_clear h
    exact hinv.volume_of_empty (by rw [hbook]; rfl)

/-! ### Twins -/

/-- Both pools stand for one book, and their level counters are the same. -/
structure Twin (b b' : PoolOrderBook) : Prop where
  inv : b.Inv
  inv' : b'.Inv
  book : b.book = b'.book
  volume : b.volumeAtPrice = b'.volumeAtPrice

theorem Twin.call (h : Twin b b') (c : Call) (hfit : (b.call c).2.Fits)
    (hfit' : (b'.call c).2.Fits) :
    (b.call c).1 = (b'.call c).1 ∧ Twin (b.call c).2 (b'.call c).2 := by
  obtain ⟨h1, h2, h3⟩ := call_spec h.inv c hfit
  obtain ⟨h1', h2', h3'⟩ := call_spec h.inv' c hfit'
  refine ⟨by rw [h2, h2', h.book], h1, h1', by rw [h3, h3', h.book], ?_⟩
  rw [volume_call h.inv c hfit, volume_call h.inv' c hfit', h.book, h.volume]

/-- Both pools answer all queries alike. -/
def Indistinct (b b' : PoolOrderBook) : Prop :=
  Alike b b' ∧ ∀ s p, b.volumeAtPrice s p = b'.volumeAtPrice s p

theorem Twin.indistinct (h : Twin b b') : Indistinct b b' :=
  ⟨h.inv.alike h.inv' h.book, fun _ _ => by rw [h.volume]⟩

/-- No run of calls tells twins apart. -/
theorem Twin.forever (h : Twin b b') (calls : List Call)
    (hfit : ∀ e ∈ history PoolOrderBook.call b calls, e.after.Fits)
    (hfit' : ∀ f ∈ history PoolOrderBook.call b' calls, f.after.Fits) :
    List.Forall₂ (fun e f => e.call = f.call ∧ e.reply = f.reply ∧ Indistinct e.before f.before ∧
        Indistinct e.after f.after)
      (history PoolOrderBook.call b calls) (history PoolOrderBook.call b' calls) := by
  have hrel := (history_related (C := Eq) (Q := Eq) (R := Twin) ?_
    (List.forall₂_same.mpr fun _ _ => rfl) h hfit hfit').1
  · refine hrel.imp ?_
    rintro e f ⟨hc, hr, hbefore, hafter⟩
    exact ⟨hc, hr, hbefore.indistinct, hafter.indistinct⟩
  · rintro s t c _ ht rfl hs hs'
    exact ht.call c hs hs'

/-- Twins of one size grow together. -/
theorem Twin.fits (h : Twin b b') (hcap : b'.poolCapacity = b.poolCapacity) {calls : List Call}
    (hfit : ∀ e ∈ history PoolOrderBook.call b calls, e.after.Fits) :
    ∀ f ∈ history PoolOrderBook.call b' calls, f.after.Fits := by
  have hstep : ∀ s t c, Twin s t ∧ t.poolCapacity = s.poolCapacity →
      (PoolOrderBook.call s c).2.Fits →
      (PoolOrderBook.call s c).1 = (PoolOrderBook.call t c).1 ∧
        Twin (PoolOrderBook.call s c).2 (PoolOrderBook.call t c).2 ∧
        (PoolOrderBook.call t c).2.poolCapacity = (PoolOrderBook.call s c).2.poolCapacity := by
    rintro s t c ⟨ht, hst⟩ hs
    have hsame : (PoolOrderBook.call t c).2.poolCapacity =
        (PoolOrderBook.call s c).2.poolCapacity := by
      rw [ht.inv.capacity_call, ht.inv'.capacity_call, ht.book, hst]
    obtain ⟨hreply, htwin⟩ := ht.call c hs (hsame.trans_lt hs)
    exact ⟨hreply, htwin, hsame⟩
  have hrel := history_simulation hstep calls ⟨h, hcap⟩ hfit
  intro f hf
  obtain ⟨e, he, -, -, -, -, hsame⟩ := exists_related hrel.flip hf
  exact hsame.trans_lt (hfit e he)

theorem volume_of_no_orders (h : b.Inv) (hb : b.book = fun _ => []) :
    b.volumeAtPrice = fun _ _ => 0 := by
  funext s p
  exact h.volume_of_empty (by rw [hb]; rfl)

theorem twin_clear_ctor (h : b.Inv) {n : ℕ} (hn : (ctor n).Fits) : Twin b.clear (ctor n) := by
  obtain ⟨h1, h2⟩ := inv_clear h
  obtain ⟨h1', h2'⟩ := inv_ctor (fits_ctor.mp hn)
  refine ⟨h1, h1', h2.trans h2'.symm, ?_⟩
  rw [volume_of_no_orders h1 h2, volume_of_no_orders h1' h2']

/-! ### Allocation -/

/-- Allocate slots for the orders, one after the other. -/
def allocateAll (b : PoolOrderBook) : List Order → List UInt32 × PoolOrderBook
  | [] => ([], b)
  | o :: os =>
    let (idx, b) := b.allocateNode o
    let (rest, b) := b.allocateAll os
    (idx :: rest, b)

/-- As long as slots are free they are handed out in the order of the free list, and the pool does
    not grow. -/
theorem allocateAll_spec : ∀ (os : List Order) {b : PoolOrderBook} {held : List UInt32},
    b.Shape held → os.length ≤ b.freeSlots.length →
    (b.allocateAll os).1 = b.freeSlots.take os.length ∧
      (b.allocateAll os).2.poolCapacity = b.poolCapacity
  | [], _, _, _, _ => ⟨rfl, rfl⟩
  | o :: os, b, held, hs, hle => by
    obtain ⟨i, fs, hf⟩ : ∃ i fs, b.freeSlots = i :: fs := by
      refine List.exists_cons_of_ne_nil fun hnil => ?_
      rw [hnil] at hle
      simp at hle
    obtain ⟨hi, hs', hf', -, -⟩ := hs.pop (o := o) hf
    have hne : b.freeHead ≠ invalidIdx := by
      rw [Ne, hs.freeHead_eq_invalid_iff, hf]
      simp
    have halloc : b.allocateNode o = (i, b.pop o) := by
      rw [allocateNode_eq, if_neg hne, hi]
    have hlength : (b.pop o).poolCapacity = b.poolCapacity := by simp [poolCapacity, pop]
    rw [hf, List.length_cons, List.length_cons] at hle
    obtain ⟨ih1, ih2⟩ := allocateAll_spec os hs' (by rw [hf']; omega)
    rw [allocateAll, halloc, hf, ← hlength, ← ih2]
    refine ⟨?_, rfl⟩
    dsimp only
    rw [ih1, hf', List.length_cons, List.take_succ_cons]

/-- A cleared pool cannot be told from a new one of any capacity by any run of calls, keeps its
    capacity, and hands out each of its slots once before it grows. -/
theorem clear_fresh (h : b.Reachable) (initialCapacity : ℕ) (calls : List Call)
    (hfit : ∀ e ∈ history call b.clear calls, e.after.Fits) (hn : (ctor initialCapacity).Fits)
    (hfit' : ∀ e ∈ history call (ctor initialCapacity) calls, e.after.Fits) :
    Indistinct b.clear (ctor initialCapacity) ∧
    List.Forall₂ (fun e f => e.call = f.call ∧ e.reply = f.reply ∧ Indistinct e.after f.after)
      (history call b.clear calls) (history call (ctor initialCapacity) calls) ∧
    b.clear.poolCapacity = b.poolCapacity ∧
    ∀ os : List Order, os.length = b.poolCapacity →
      (b.clear.allocateAll os).1.Nodup ∧
      (∀ i : UInt32, i ∈ (b.clear.allocateAll os).1 ↔ i.toNat < b.poolCapacity) ∧
      (b.clear.allocateAll os).2.poolCapacity = b.poolCapacity := by
  obtain ⟨hinv, -⟩ := h.good
  have htwin := twin_clear_ctor hinv hn
  refine ⟨htwin.indistinct, ?_, capacity_clear, fun os hos => ?_⟩
  · refine (htwin.forever calls hfit hfit').imp ?_
    rintro e f ⟨hc, hr, -, ht⟩
    exact ⟨hc, hr, ht⟩
  · have hcap : b.poolCapacity < 2 ^ 32 := hinv.shape.capacity
    obtain ⟨hshape, hfree, -⟩ := shape_clear hcap
    have hlength : b.clear.freeSlots.length = b.poolCapacity := by
      rw [hfree, slotRange, List.length_map, List.length_range']
      rfl
    obtain ⟨h1, h2⟩ := allocateAll_spec os hshape (by omega)
    have hall : (b.clear.allocateAll os).1 = slotRange 0 b.poolCapacity := by
      rw [h1, List.take_of_length_le (by omega), hfree]
      rfl
    have hcount := count_slotRange (a := 0) (n := b.poolCapacity) (by omega)
    rw [hall]
    refine ⟨List.nodup_iff_count_le_one.mpr fun i => ?_, fun i => ?_, h2.trans capacity_clear⟩
    · rw [hcount]
      split_ifs <;> omega
    · rw [← List.count_pos_iff, hcount]
      split_ifs with hi <;> simp at hi <;> simp [hi]

theorem clear_fresh_close :
    let os : List Order := List.replicate tradingDayClose.poolCapacity { orderId := 9 }
    Indistinct tradingDayClose.clear (ctor 3) ∧
    List.Forall₂ (fun e f => e.call = f.call ∧ e.reply = f.reply ∧ Indistinct e.after f.after)
      (history call tradingDayClose.clear tradingDay) (history call (ctor 3) tradingDay) ∧
    tradingDayClose.clear.poolCapacity = tradingDayClose.poolCapacity ∧
    (tradingDayClose.clear.allocateAll os).1.Nodup ∧
    (∀ i : UInt32, i ∈ (tradingDayClose.clear.allocateAll os).1 ↔
      i.toNat < tradingDayClose.poolCapacity) ∧
    (tradingDayClose.clear.allocateAll os).2.poolCapacity = tradingDayClose.poolCapacity := by
  intro os
  have h := clear_fresh tradingDayClose_reachable 3 tradingDay (by decide) (by decide) (by decide)
  exact ⟨h.1, h.2.1, h.2.2.1, h.2.2.2 os List.length_replicate⟩

end PoolOrderBook

end Titan
