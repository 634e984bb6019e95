import Titan.Engine.PoolSpec

/-! Where every submitted quantity goes.

    Two accounts of a run: the totals over its events, and one record for each accepted order from
    its acceptance to its end. All sums are exact. Both are read off the calls, the replies and the
    states around them. -/

namespace Titan
open Schemes

/-! ### Quantities under an id -/

namespace Book
variable {k : Book} {o : Order} {id : OrderId}

/-- Exact quantity resting under an id, on both sides. -/
def held (k : Book) (id : OrderId) : ℕ := heldBy k.orders id

theorem heldBy_append (xs ys : List Order) (id : OrderId) :
    heldBy (xs ++ ys) id = heldBy xs id + heldBy ys id := by
  rw [heldBy, List.filter_append, total_append, heldBy, heldBy]

theorem heldBy_perm {xs ys : List Order} (h : xs.Perm ys) : heldBy xs id = heldBy ys id :=
  ((h.filter _).map _).sum_eq

theorem held_eq (k : Book) (s : Side) (id : OrderId) :
    k.held id = heldBy (k s) id + heldBy (k s.opp) id := by
  rw [held, heldBy_perm (k.orders_perm s), heldBy_append]

theorem heldBy_eq_zero {xs : List Order} (h : ∀ x ∈ xs, x.orderId ≠ id) : heldBy xs id = 0 := by
  rw [heldBy, List.filter_eq_nil_iff.mpr (by simpa using h), total_nil]

theorem held_of_none (h : k.find? id = none) : k.held id = 0 :=
  heldBy_eq_zero (find?_eq_none_iff.mp h)

/-- Ids are unique, so the quantity under an id is that of the order with the id. -/
theorem held_of_some (hk : (k.orders.map (·.orderId)).Nodup) (h : k.find? id = some o) :
    k.held id = o.remainingQuantity.toNat := by
  obtain ⟨ho, rfl⟩ := (find?_eq_some_iff hk).mp h
  obtain ⟨xs, ys, hxy⟩ := List.mem_iff_append.mp ho
  rw [hxy, List.map_append, List.map_cons, List.nodup_append, List.nodup_cons] at hk
  have hx : heldBy xs o.orderId = 0 := heldBy_eq_zero fun x hx =>
    hk.2.2 _ (List.mem_map_of_mem hx) _ (List.mem_cons_self ..)
  have hy : heldBy ys o.orderId = 0 := heldBy_eq_zero fun y hy he =>
    hk.2.1.1 (he ▸ List.mem_map_of_mem (f := (·.orderId)) hy)
  rw [held, hxy, heldBy_append, heldBy_cons, hx, hy, if_pos rfl, Nat.zero_add, Nat.add_zero]

theorem heldBy_place (s : Side) (o : Order) (xs : List Order) : heldBy (place s o xs) id =
    (if o.orderId = id then o.remainingQuantity.toNat else 0) + heldBy xs id := by
  rw [heldBy_perm (place_perm xs), heldBy_cons]

/-- Another order loses under its id what it sells. -/
theorem soldBy_add_held (k : Book) (h : id ≠ o.orderId) :
    soldBy (k.fillOf o).trades id + (k.accept o).held id = k.held id := by
  have hs := soldBy_add_heldBy o id o.effective (k o.side.opp)
  rw [held_eq _ o.side, held_eq k o.side, accept_opp, accept_own]
  split_ifs
  · rw [heldBy_place, if_neg (Ne.symm h)]
    rw [fillOf] at *
    omega
  · rw [fillOf] at *
    omega

/-- The submitted order rests with what it did not trade, or not at all. -/
theorem find?_accept_self (ha : k.Accepts o) : (k.accept o).find? o.orderId =
    if (k.fillOf o).left ≠ 0 ∧ o.type = .limit
    then some { o with remainingQuantity := (k.fillOf o).left } else none := by
  have hnone := find?_fill_none (o := o) ha.2.2
  rw [accept]
  split_ifs with hr
  · cases hf : (Book.rest (k.setSide o.side.opp (k.fillOf o).rest)
      { o with remainingQuantity := (k.fillOf o).left }).find? o.orderId with
    | none =>
      refine absurd rfl (find?_eq_none_iff.mp hf
        { o with remainingQuantity := (k.fillOf o).left } ?_)
      refine (mem_orders _ o.side).mpr (.inl ?_)
      rw [Book.rest, setSide_self]
      exact mem_place.mpr (.inl rfl)
    | some x =>
      have hx := List.mem_of_find?_eq_some hf
      have hid : x.orderId = o.orderId := by simpa using List.find?_some hf
      refine congrArg some (by_contra fun hne => ?_)
      refine find?_eq_none_iff.mp hnone x ?_ hid
      rcases (mem_orders _ o.side).mp hx with hx | hx
      · rw [Book.rest, setSide_self] at hx
        exact (mem_orders _ o.side).mpr (.inl ((mem_place.mp hx).resolve_left hne))
      · rw [Book.rest, setSide_opp] at hx
        exact (mem_orders _ o.side).mpr (.inr hx)
  · exact hnone

/-- A cancel removes what its order holds, and nothing under other ids. -/
theorem held_cancel (id id' : OrderId) :
    (k.cancel id).2.held id' = if id' = id then 0 else k.held id' := by
  rw [held, heldBy, orders_cancel, List.filter_filter, held, heldBy]
  split_ifs with h
  · rw [List.filter_eq_nil_iff.mpr, total_nil]
    intro x _
    simp [h]
  · refine congrArg total (List.filter_congr fun x _ => ?_)
    by_cases hx : x.orderId = id'
    · simp [hx, h]
    · simp [hx]

theorem find?_cancel_self (k : Book) (id : OrderId) : (k.cancel id).2.find? id = none := by
  rw [find?_eq_none_iff, orders_cancel]
  intro x hx
  simpa using (List.mem_filter.mp hx).2

theorem find?_cancel_of_ne (hk : k.Sane) {id' : OrderId} (h : id' ≠ id) :
    (k.cancel id).2.find? id' = k.find? id' := by
  cases hf : k.find? id' with
  | none =>
    rw [find?_eq_none_iff] at hf ⊢
    rw [orders_cancel]
    intro x hx
    exact hf x (List.mem_of_mem_filter hx)
  | some x =>
    obtain ⟨hx, rfl⟩ := (find?_eq_some_iff hk.ids).mp hf
    rw [find?_eq_some_iff (hk.cancel id).ids, orders_cancel]
    exact ⟨List.mem_filter.mpr ⟨hx, by simpa using h⟩, rfl⟩

/-! ### Totals -/

theorem total_perm {xs ys : List Order} (h : xs.Perm ys) : total xs = total ys :=
  (h.map _).sum_eq

theorem total_orders (k : Book) (s : Side) : total k.orders = total (k s) + total (k s.opp) := by
  rw [total_perm (k.orders_perm s), total_append]

/-- Every fill takes its quantity from both sides of the trade. -/
theorem total_accept (k : Book) (o : Order) : total k.orders + o.effective.toNat =
    2 * traded (k.fillOf o).trades + total (k.accept o).orders +
      if o.type = .market then (k.fillOf o).left.toNat else 0 := by
  have h1 := traded_add_left o o.effective (k o.side.opp)
  have h2 := traded_add_rest o o.effective (k o.side.opp)
  rw [total_orders _ o.side, total_orders (k.accept o) o.side, accept_opp, accept_own]
  rw [fillOf] at *
  split_ifs with hr ht ht
  · rw [hr.2] at ht; cases ht
  · rw [total_perm (place_perm _), total_cons]
    dsimp only
    omega
  · omega
  · have h0 : (fill o o.effective (k o.side.opp)).left = 0 := by
      by_contra hne
      refine hr ⟨hne, ?_⟩
      cases h : o.type with
      | limit => rfl
      | market => exact absurd h ht
    rw [h0, UInt32.toNat_zero] at h1
    omega

theorem total_cancel (hk : k.Sane) (id : OrderId) : total k.orders =
    total (k.cancel id).2.orders + ((k.find? id).map (·.remainingQuantity.toNat)).getD 0 := by
  cases hf : k.find? id with
  | none => rw [cancel_of_none hf]; rfl
  | some o =>
    obtain ⟨ho, rfl⟩ := (find?_eq_some_iff hk.ids).mp hf
    obtain ⟨s, hs⟩ := exists_mem_side ho
    obtain ⟨xs, ys, hxy⟩ := List.mem_iff_append.mp hs
    rw [cancel_of_cut xs ys hk.ids hxy (setSide_self k s (xs ++ ys)) (setSide_opp ..)]
    dsimp only
    rw [total_orders k s, total_orders _ s, setSide_self, setSide_opp, hxy]
    simp only [total_append, total_cons, Option.map_some, Option.getD_some]
    omega

end Book

/-! ### The totals of a run -/

/-- One call on a pool. -/
abbrev PoolEvent := Event PoolOrderBook Call Reply

namespace PoolEvent

/-- The effective quantity of the order that the call accepted. -/
def accepted (e : PoolEvent) : ℕ :=
  match e.call with
  | .submit order _ => if e.reply.result = some true then order.effective.toNat else 0
  | _ => 0

/-- The trades that the call appended. -/
def trades (e : PoolEvent) : List Trade :=
  match e.call with
  | .submit _ outTrades => e.reply.outTrades.drop outTrades.length
  | _ => []

/-- The unfilled remainder of an accepted market order. -/
def discarded (e : PoolEvent) : ℕ :=
  match e.call with
  | .submit order outTrades => if e.reply.result = some true ∧ order.type = .market
      then (e.before.matched order outTrades).incoming.remainingQuantity.toNat else 0
  | _ => 0

/-- The remaining quantity that a successful cancel removed. -/
def cancelled (e : PoolEvent) : ℕ :=
  match e.call with
  | .cancel orderId => if e.reply.result = some true
      then ((e.before.getOrder orderId).map (·.remainingQuantity.toNat)).getD 0 else 0
  | _ => 0

/-- The remaining quantities that `clear` removed. -/
def cleared (e : PoolEvent) : ℕ :=
  match e.call with
  | .clear => total (e.before.resting .buy ++ e.before.resting .sell)
  | _ => 0

end PoolEvent

namespace PoolOrderBook
variable {b : PoolOrderBook} {o : Order} {out : List Trade}

/-- The remaining quantities of all resting orders. -/
def openQuantity (b : PoolOrderBook) : ℕ := total (b.resting .buy ++ b.resting .sell)

/-- The event of a call. -/
def event (b : PoolOrderBook) (c : Call) : PoolEvent := ⟨b, c, (b.call c).1, (b.call c).2⟩

/-- The balance of one call. -/
theorem balance_call (h : b.Good) (c : Call) (hfit : (b.call c).2.Fits) :
    b.openQuantity + (b.event c).accepted = 2 * traded (b.event c).trades + (b.call c).2.openQuantity +
      (b.event c).cancelled + (b.event c).cleared + (b.event c).discarded := by
  cases c with
  | submit o out =>
    by_cases ha : b.book.Accepts o
    · obtain ⟨-, htr, hbook⟩ := submitOrder_accepted h.1 ha hfit
      obtain ⟨-, -, hinc, -⟩ := matched_spec h.1 o out
      have hflag := (submitOrder_flag h.1 o out).mpr ha
      have hbal := Book.total_accept b.book o
      have h1 : (b.event (.submit o out)).accepted = o.effective.toNat := by
        simp [event, PoolEvent.accepted, call, hflag]
      have h2 : (b.event (.submit o out)).trades = (b.book.fillOf o).trades := by
        simp [event, PoolEvent.trades, call, htr]
      have h3 : (b.event (.submit o out)).discarded =
          if o.type = .market then (b.book.fillOf o).left.toNat else 0 := by
        simp [event, PoolEvent.discarded, call, hflag, hinc]
      have h4 : ((b.call (.submit o out)).2).openQuantity = total (b.book.accept o).orders := by
        rw [← hbook]; rfl
      rw [h1, h2, h3, h4]
      exact hbal
    · have heq := submitOrder_eq h.1 o out
      rw [if_neg ha] at heq
      simp [event, PoolEvent.accepted, PoolEvent.trades, PoolEvent.discarded,
        PoolEvent.cancelled, PoolEvent.cleared, call, heq]
  | cancel id =>
    have hbal := Book.total_cancel h.2 id
    have hflag := flag_cancelOrder h.1 id
    have h4 : ((b.call (.cancel id)).2).openQuantity = total (b.book.cancel id).2.orders := by
      rw [← book_cancelOrder h.1]; rfl
    have h5 : (b.event (.cancel id)).cancelled =
        ((b.book.find? id).map (·.remainingQuantity.toNat)).getD 0 := by
      rw [← h.1.getOrder_eq] at hflag ⊢
      cases hg : b.getOrder id with
      | none => simp [event, PoolEvent.cancelled, call, hflag, hg]
      | some x => simp [event, PoolEvent.cancelled, call, hflag, hg]
    rw [h4, h5]
    simp only [event, PoolEvent.accepted, PoolEvent.trades, PoolEvent.discarded,
      PoolEvent.cleared, traded_nil]
    show total b.book.orders + 0 = _
    omega
  | clear =>
    have h0 : (b.call .clear).2.openQuantity = 0 := by
      show total (b.clear.book.orders) = 0
      rw [(inv_clear h.1).2]
      rfl
    rw [h0]
    simp only [event, PoolEvent.accepted, PoolEvent.trades, PoolEvent.discarded,
      PoolEvent.cancelled, PoolEvent.cleared, traded_nil, openQuantity]
    omega

/-- The balance of a run, from any good state. -/
theorem balance_history : ∀ (calls : List Call) {b : PoolOrderBook}, b.Good →
    (∀ e ∈ history call b calls, e.after.Fits) →
    b.openQuantity + ((history call b calls).map PoolEvent.accepted).sum =
      2 * ((history call b calls).map fun e => traded (PoolEvent.trades e)).sum +
      (final call b calls).openQuantity + ((history call b calls).map PoolEvent.cancelled).sum +
      ((history call b calls).map PoolEvent.cleared).sum +
      ((history call b calls).map PoolEvent.discarded).sum
  | [], b, _, _ => by simp [history, final]
  | c :: cs, b, h, hfit => by
    have hfit₁ := hfit _ (List.mem_cons_self ..)
    have ih := balance_history cs (good_call b c h hfit₁) fun e he =>
      hfit e (List.mem_cons_of_mem _ he)
    have hc := balance_call h c hfit₁
    simp only [history, final, List.map_cons, List.sum_cons]
    rw [event] at hc
    omega

end PoolOrderBook

/-! ### One record an accepted order -/

/-- How the life of an accepted order ended, with the quantity that ended with it. -/
inductive Fate where
  | resting
  | filled
  | cancelled (left : ℕ)
  | cleared (left : ℕ)
  | discarded (left : ℕ)
  deriving DecidableEq

/-- An accepted order from its acceptance to its end; the id may be used again afterwards. -/
structure Life where
  orderId : OrderId
  submitted : ℕ
  traded : ℕ := 0
  fate : Fate := .resting
  deriving DecidableEq

namespace Life

def born (o : Order) : Life := { orderId := o.orderId, submitted := o.effective.toNat }

/-- Book the trades of a call to the order, as maker or as taker, while it lives. -/
def credit (ts : List Trade) (l : Life) : Life :=
  if l.fate = .resting then
    { l with
      traded := l.traded + Titan.traded
        (ts.filter fun t => t.makerOrderId = l.orderId ∨ t.takerOrderId = l.orderId) }
  else l

/-- After a submission, orders that no longer rest are filled; the submitted one may also have been
    discarded with `left` unfilled. -/
def settle (b : PoolOrderBook) (orderId : OrderId) (left : Quantity) (l : Life) : Life :=
  if l.fate = .resting ∧ b.getOrder l.orderId = none then
    { l with fate := if l.orderId = orderId ∧ left ≠ 0 then .discarded left.toNat else .filled }
  else l

/-- The remaining quantity of the order in a pool. -/
def remaining (b : PoolOrderBook) (l : Life) : ℕ :=
  ((b.getOrder l.orderId).map (·.remainingQuantity.toNat)).getD 0

/-- The record of a life adds up. -/
def Balanced (b : PoolOrderBook) (l : Life) : Prop :=
  match l.fate with
  | .resting => ∃ o, b.getOrder l.orderId = some o ∧
      l.submitted = l.traded + o.remainingQuantity.toNat
  | .filled => l.submitted = l.traded
  | .cancelled left | .cleared left | .discarded left => l.submitted = l.traded + left

end Life

/-- Bring the records up to date after a call. -/
def record (lives : List Life) (e : PoolEvent) : List Life :=
  match e.call with
  | .submit order outTrades =>
    if e.reply.result = some true then
      let left := (e.before.matched order outTrades).incoming.remainingQuantity
      (lives ++ [Life.born order]).map fun l => (l.credit e.trades).settle e.after order.orderId left
    else lives
  | .cancel orderId =>
    if e.reply.result = some true then lives.map fun l =>
      if l.fate = .resting ∧ l.orderId = orderId
      then { l with fate := .cancelled (l.remaining e.before) } else l
    else lives
  | .clear => lives.map fun l =>
      if l.fate = .resting then { l with fate := .cleared (l.remaining e.before) } else l

namespace Life
variable {b b' : PoolOrderBook} {l : Life}

theorem Balanced.of_ended (h : l.Balanced b) (hf : l.fate ≠ .resting) : l.Balanced b' := by
  rw [Balanced] at h ⊢
  cases hl : l.fate <;> simp_all

/-- A living order, by the quantity held under its id. -/
theorem balanced_resting_iff (h : b.Good) (hf : l.fate = .resting) : l.Balanced b ↔
    b.book.find? l.orderId ≠ none ∧ l.submitted = l.traded + b.book.held l.orderId := by
  rw [Balanced, hf]
  simp only [h.1.getOrder_eq]
  cases hx : b.book.find? l.orderId with
  | none => simp
  | some o => simp [Book.held_of_some h.2.ids hx]

/-- What ends a living order takes its remaining quantity. -/
theorem Balanced.submitted_eq (h : l.Balanced b) (hf : l.fate = .resting) :
    l.submitted = l.traded + l.remaining b := by
  rw [Balanced, hf] at h
  obtain ⟨o, ho, hsub⟩ := h
  rw [hsub, remaining, ho]
  rfl

end Life

theorem traded_filter_taker {o : Order} {ts : List Trade} {id : OrderId}
    (ht : ∀ t ∈ ts, t.takerOrderId = o.orderId) :
    traded (ts.filter fun t => t.makerOrderId = id ∨ t.takerOrderId = id) =
      if id = o.orderId then traded ts else soldBy ts id := by
  split_ifs with h
  · rw [List.filter_eq_self.mpr]
    intro t hm
    simp [ht t hm, h]
  · refine congrArg traded (List.filter_congr fun t hm => ?_)
    simp [ht t hm, Ne.symm h]

theorem taker_of_mem_fill (o : Order) : ∀ (q : Quantity) (L : List Order),
    ∀ t ∈ (fill o q L).trades, t.takerOrderId = o.orderId
  | q, [] => by simp [fill]
  | q, m :: ms => by
    rw [fill]
    split_ifs with h1 h2
    · simp
    · exact List.forall_mem_cons.mpr ⟨rfl, taker_of_mem_fill o _ ms⟩
    · simp

namespace PoolOrderBook
variable {b : PoolOrderBook} {o : Order} {out : List Trade}

/-- An accepted submission keeps every record in balance, the new one included. -/
theorem balanced_submit (h : b.Good) {lives : List Life} (hl : ∀ l ∈ lives, l.Balanced b)
    (ha : b.book.Accepts o) (hfit : (b.submitOrder o out).2.2.Fits) :
    ∀ l ∈ record lives (b.event (.submit o out)), l.Balanced (b.submitOrder o out).2.2 := by
  obtain ⟨hinv', htr, hbook⟩ := submitOrder_accepted h.1 ha hfit
  obtain ⟨-, -, hinc, -⟩ := matched_spec h.1 o out
  have hflag := (submitOrder_flag h.1 o out).mpr ha
  have hgood' : (b.submitOrder o out).2.2.Good := ⟨hinv', hbook ▸ h.2.accept ha⟩
  have hself := Book.find?_accept_self ha
  have htaker : ∀ t ∈ (b.book.fillOf o).trades, t.takerOrderId = o.orderId :=
    taker_of_mem_fill o o.effective (b.book o.side.opp)
  have htrades : (b.event (.submit o out)).trades = (b.book.fillOf o).trades := by
    simp [event, PoolEvent.trades, call, htr]
  have hrec : record lives (b.event (.submit o out)) =
      (lives ++ [Life.born o]).map fun l =>
        (l.credit (b.book.fillOf o).trades).settle (b.submitOrder o out).2.2 o.orderId
          (b.book.fillOf o).left := by
    rw [record, ← htrades]
    simp [event, call, hflag, hinc]
  set b' := (b.submitOrder o out).2.2
  rw [hrec]
  intro l' hl'
  obtain ⟨l, hmem, rfl⟩ := List.mem_map.mp hl'
  by_cases hf : l.fate = .resting
  · -- what the order traded in this call is what it lost
    have hlost : l.submitted = (l.credit (b.book.fillOf o).trades).traded +
        (b'.book.held l.orderId + if l.orderId = o.orderId ∧ b'.book.find? l.orderId = none
          then (b.book.fillOf o).left.toNat else 0) := by
      rw [Life.credit, if_pos hf]
      dsimp only
      rw [traded_filter_taker (o := o) htaker]
      rcases List.mem_append.mp hmem with hmem | hmem
      · obtain ⟨hfind, hsub⟩ := (Life.balanced_resting_iff h hf).mp (hl l hmem)
        have hne : l.orderId ≠ o.orderId := fun he => hfind (he ▸ ha.2.2)
        have hsold := Book.soldBy_add_held b.book hne
        rw [if_neg hne, if_neg fun hx => hne hx.1, hbook, hsub, ← hsold]
        omega
      · rw [List.mem_singleton.mp hmem]
        have hadd := traded_add_left o o.effective (b.book o.side.opp)
        have hborn : (Life.born o).orderId = o.orderId := rfl
        have hfate : (Life.born o).traded = 0 := rfl
        have hsub : (Life.born o).submitted = o.effective.toNat := rfl
        rw [hborn, hfate, hsub, if_pos rfl, Nat.zero_add, ← hadd]
        refine congrArg _ ?_
        rw [hbook, hself]
        split_ifs with hr hc hc
        · exact absurd hc.2 (by simp)
        · rw [Book.held_of_some (h.2.accept ha).ids (hself.trans (if_pos hr))]
          rfl
        · rw [Book.held_of_none (hself.trans (if_neg hr)), Nat.zero_add]
          rfl
        · exact absurd ⟨rfl, rfl⟩ hc
    have hfc : (l.credit (b.book.fillOf o).trades).fate = .resting := by
      rw [Life.credit, if_pos hf]; exact hf
    have hid : (l.credit (b.book.fillOf o).trades).orderId = l.orderId := by
      rw [Life.credit, if_pos hf]
    have hsubm : (l.credit (b.book.fillOf o).trades).submitted = l.submitted := by
      rw [Life.credit, if_pos hf]
    rw [Life.settle]
    split_ifs with hgone hd
    · -- discarded
      rw [hgood'.1.getOrder_eq, hid] at hgone
      rw [hid] at hd
      rw [Book.held_of_none hgone.2, if_pos ⟨hd.1, hgone.2⟩, Nat.zero_add] at hlost
      exact hsubm.trans hlost
    · -- filled
      rw [hgood'.1.getOrder_eq, hid] at hgone
      rw [hid] at hd
      rw [Book.held_of_none hgone.2, Nat.zero_add] at hlost
      refine hsubm.trans (hlost.trans ?_)
      split_ifs with hc
      · have h0 : (b.book.fillOf o).left = 0 := by
          by_contra hne
          exact hd ⟨hc.1, hne⟩
        rw [h0]
        rfl
      · rfl
    · -- still resting
      rw [Life.balanced_resting_iff hgood' hfc, hid, hsubm]
      rw [hgood'.1.getOrder_eq, hid, not_and] at hgone
      have hnn := hgone hfc
      refine ⟨hnn, ?_⟩
      rw [if_neg fun hx => hnn hx.2] at hlost
      exact hlost
  · have hc : l.credit (b.book.fillOf o).trades = l := by rw [Life.credit, if_neg hf]
    have hs : l.settle b' o.orderId (b.book.fillOf o).left = l := by
      rw [Life.settle, if_neg fun hx => hf hx.1]
    rw [hc, hs]
    rcases List.mem_append.mp hmem with hmem | hmem
    · exact (hl l hmem).of_ended hf
    · rw [List.mem_singleton.mp hmem] at hf
      exact absurd rfl hf

/-- A cancel moves what the order holds to its record. -/
theorem balanced_cancel (h : b.Good) {lives : List Life} (hl : ∀ l ∈ lives, l.Balanced b)
    (id : OrderId) :
    ∀ l ∈ record lives (b.event (.cancel id)), l.Balanced (b.cancelOrder id).2 := by
  have hinv' := (cancelOrder_spec h.1 id).1
  have hbook := book_cancelOrder h.1 id
  have hflag := flag_cancelOrder h.1 id
  have hgood' : (b.cancelOrder id).2.Good := ⟨hinv', hbook ▸ h.2.cancel id⟩
  have hkeep : ∀ l ∈ lives, ¬(l.fate = .resting ∧ l.orderId = id) →
      l.Balanced (b.cancelOrder id).2 := by
    intro l hmem hnot
    by_cases hf : l.fate = .resting
    · have hne : l.orderId ≠ id := fun he => hnot ⟨hf, he⟩
      rw [Life.balanced_resting_iff hgood' hf, hbook, Book.find?_cancel_of_ne h.2 hne,
        Book.held_cancel, if_neg hne]
      exact (Life.balanced_resting_iff h hf).mp (hl l hmem)
    · exact (hl l hmem).of_ended hf
  intro l' hl'
  have hrec : record lives (b.event (.cancel id)) =
      if (b.event (.cancel id)).reply.result = some true then lives.map fun l =>
        if l.fate = .resting ∧ l.orderId = id
        then { l with fate := .cancelled (l.remaining b) } else l
      else lives := rfl
  rw [hrec] at hl'
  by_cases hr : (b.event (.cancel id)).reply.result = some true
  · rw [if_pos hr] at hl'
    obtain ⟨l, hmem, rfl⟩ := List.mem_map.mp hl'
    split_ifs with hc
    · exact (hl l hmem).submitted_eq hc.1
    · exact hkeep l hmem hc
  · rw [if_neg hr] at hl'
    refine hkeep l' hl' ?_
    rintro ⟨hf, rfl⟩
    refine hr (congrArg some (hflag.trans (Option.isSome_iff_ne_none.mpr ?_)))
    exact ((Life.balanced_resting_iff h hf).mp (hl l' hl')).1

theorem balanced_clear {lives : List Life} (hl : ∀ l ∈ lives, l.Balanced b) :
    ∀ l ∈ record lives (b.event .clear), l.Balanced b.clear := by
  intro l' hl'
  obtain ⟨l, hmem, rfl⟩ := List.mem_map.mp hl'
  split_ifs with hf
  · exact (hl l hmem).submitted_eq hf
  · exact (hl l hmem).of_ended hf

/-- One call keeps every record in balance. -/
theorem balanced_call (h : b.Good) {lives : List Life} (hl : ∀ l ∈ lives, l.Balanced b) (c : Call)
    (hfit : (b.call c).2.Fits) : ∀ l ∈ record lives (b.event c), l.Balanced (b.call c).2 := by
  cases c with
  | submit o out =>
    by_cases ha : b.book.Accepts o
    · exact balanced_submit h hl ha hfit
    · have heq := submitOrder_eq h.1 o out
      rw [if_neg ha] at heq
      have hrec : record lives (b.event (.submit o out)) = lives := by
        simp [record, event, call, heq]
      have hafter : (b.call (.submit o out)).2 = b := by
        simp [call, heq]
      rw [hrec, hafter]
      exact hl
  | cancel id => exact balanced_cancel h hl id
  | clear => exact balanced_clear hl

end PoolOrderBook

/-! ### The records of a run -/

/-- The record that a call opens. -/
def PoolEvent.births (e : PoolEvent) : List Life :=
  match e.call with
  | .submit order _ => if e.reply.result = some true then [Life.born order] else []
  | _ => []

/-- The ids of the orders that live. -/
def living (lives : List Life) : List OrderId :=
  (lives.filter fun l => l.fate = .resting).map (·.orderId)

/-- A call opens its records and updates them all; no record changes its order, and none comes back
    to life. -/
theorem record_eq (lives : List Life) (e : PoolEvent) : ∃ f : Life → Life,
    record lives e = (lives ++ e.births).map f ∧ ∀ l, (f l).orderId = l.orderId ∧
      (f l).submitted = l.submitted ∧ ((f l).fate = .resting → l.fate = .resting) := by
  obtain ⟨before, call, reply, after⟩ := e
  cases call with
  | submit order out =>
    by_cases hr : reply.result = some true
    · refine ⟨_, by simp only [record, PoolEvent.births, if_pos hr]; rfl, fun l => ?_⟩
      simp only [Life.settle, Life.credit]
      split_ifs <;> simp_all
    · refine ⟨id, by simp [record, PoolEvent.births, hr], fun l => ⟨rfl, rfl, id⟩⟩
  | cancel orderId =>
    by_cases hr : reply.result = some true
    · refine ⟨_, by simp only [record, PoolEvent.births, if_pos hr, List.append_nil]; rfl, fun l => ?_⟩
      split_ifs <;> simp_all
    · refine ⟨id, by simp [record, PoolEvent.births, hr], fun l => ⟨rfl, rfl, id⟩⟩
  | clear =>
    refine ⟨_, by simp only [record, PoolEvent.births, List.append_nil]; rfl, fun l => ?_⟩
    split_ifs <;> simp_all

/-- The living were alive. -/
theorem living_map {f : Life → Life} (hf : ∀ l, (f l).orderId = l.orderId ∧
    (f l).submitted = l.submitted ∧ ((f l).fate = .resting → l.fate = .resting)) :
    ∀ lives : List Life, (living (lives.map f)).Sublist (living lives)
  | [] => .refl _
  | l :: ls => by
    have ih := living_map hf ls
    obtain ⟨h1, -, h3⟩ := hf l
    simp only [living, List.map_cons, List.filter_cons] at ih ⊢
    by_cases hl : (f l).fate = .resting
    · simpa [hl, h3 hl, h1] using ih
    · by_cases hl' : l.fate = .resting
      · simpa [hl, hl'] using ih.cons _
      · simpa [hl, hl'] using ih

/-- The ledger of a run in step with the pool. -/
structure Kept (b : PoolOrderBook) (lives : List Life) : Prop where
  balanced : ∀ l ∈ lives, l.Balanced b
  /-- An id is borne by one living order at most. -/
  unique : (living lives).Nodup

namespace PoolOrderBook
variable {b : PoolOrderBook}

theorem kept_call (b : PoolOrderBook) (lives : List Life) (c : Call) (h : b.Good ∧ Kept b lives)
    (hfit : (b.call c).2.Fits) :
    (b.call c).2.Good ∧ Kept (b.call c).2 (record lives (b.event c)) := by
  obtain ⟨hgood, hkept⟩ := h
  refine ⟨good_call b c hgood hfit, balanced_call hgood hkept.balanced c hfit, ?_⟩
  obtain ⟨f, hrec, hf⟩ := record_eq lives (b.event c)
  rw [hrec]
  refine (living_map hf _).nodup ?_
  cases c with
  | submit o out =>
    by_cases ha : b.book.Accepts o
    · -- the id of an accepted order rests nowhere, so no living order bears it
      have hb : (b.event (.submit o out)).births = [Life.born o] := by
        have hflag := (submitOrder_flag hgood.1 o out).mpr ha
        simp [PoolEvent.births, event, call, hflag]
      rw [hb, living, List.filter_append, List.map_append]
      refine List.nodup_append.mpr ⟨hkept.unique, List.nodup_singleton _, ?_⟩
      rintro id hid id' hid' rfl
      obtain ⟨l, hl, rfl⟩ := List.mem_map.mp hid
      obtain ⟨hmem, hfate⟩ := List.mem_filter.mp hl
      have hlive := (Life.balanced_resting_iff hgood (of_decide_eq_true hfate)).mp
        (hkept.balanced l hmem)
      refine hlive.1 ?_
      have hid : l.orderId = o.orderId := List.mem_singleton.mp hid'
      rw [hid]
      exact ha.2.2
    · have heq := submitOrder_eq hgood.1 o out
      rw [if_neg ha] at heq
      have hb : (b.event (.submit o out)).births = [] := by
        simp [PoolEvent.births, event, call, heq]
      rw [hb, List.append_nil]
      exact hkept.unique
  | cancel id => exact (List.append_nil lives).symm ▸ hkept.unique
  | clear => exact (List.append_nil lives).symm ▸ hkept.unique

end PoolOrderBook

/-- The ledger has one record for each accepted order, in the order of acceptance. -/
theorem ledger_entries : ∀ (events : List PoolEvent) (lives : List Life),
    (events.foldl record lives).map (fun l => (l.orderId, l.submitted)) =
      lives.map (fun l => (l.orderId, l.submitted)) ++
        events.flatMap fun e => (PoolEvent.births e).map fun l => (l.orderId, l.submitted)
  | [], lives => by simp
  | e :: es, lives => by
    obtain ⟨f, hrec, hf⟩ := record_eq lives e
    have hsame : ((fun l => (l.orderId, l.submitted)) ∘ f) =
        fun l : Life => (l.orderId, l.submitted) :=
      funext fun l => Prod.ext (hf l).1 (hf l).2.1
    rw [List.foldl_cons, ledger_entries es, hrec, List.map_map, hsame, List.map_append,
      List.flatMap_cons, List.append_assoc]

theorem Life.Balanced.traded_le {b : PoolOrderBook} {l : Life} (h : l.Balanced b) :
    l.traded ≤ l.submitted := by
  rw [Balanced] at h
  cases hf : l.fate with
  | resting =>
    rw [hf] at h
    obtain ⟨o, -, hsub⟩ := h
    omega
  | _ =>
    rw [hf] at h
    dsimp only at h
    omega

/-- All that was submitted was traded (on both sides of a trade), rests, was cancelled or cleared, or
    was the discarded remainder of a market order: in total, and for every accepted order over its
    own life, so that no order trades more than was submitted. -/
theorem quantity_conserved (initialCapacity : ℕ) (calls : List Call)
    (hn : (PoolOrderBook.ctor initialCapacity).Fits)
    (hfit : ∀ e ∈ history PoolOrderBook.call (.ctor initialCapacity) calls, e.after.Fits) :
    let events : List PoolEvent := history PoolOrderBook.call (.ctor initialCapacity) calls
    let b := final PoolOrderBook.call (.ctor initialCapacity) calls
    let ledger := events.foldl record []
    (events.map PoolEvent.accepted).sum =
      2 * (events.map fun e => traded (PoolEvent.trades e)).sum + b.openQuantity +
      (events.map PoolEvent.cancelled).sum + (events.map PoolEvent.cleared).sum +
      (events.map PoolEvent.discarded).sum ∧
    ledger.map (fun l => (l.orderId, l.submitted)) =
      events.flatMap (fun e => (PoolEvent.births e).map fun l => (l.orderId, l.submitted)) ∧
    (living ledger).Nodup ∧ ∀ l ∈ ledger, l.Balanced b ∧ l.traded ≤ l.submitted := by
  intro events b ledger
  have hgood := PoolOrderBook.good_ctor hn
  have hkept : b.Good ∧ Kept b ledger :=
    fold_invariant (I := fun b lives => b.Good ∧ Kept b lives) record PoolOrderBook.kept_call calls
      ⟨hgood, fun l hl => absurd hl (List.not_mem_nil), List.nodup_nil⟩ hfit
  refine ⟨?_, ledger_entries events [], hkept.2.unique, fun l hl =>
    ⟨hkept.2.balanced l hl, (hkept.2.balanced l hl).traded_le⟩⟩
  have hempty : (PoolOrderBook.ctor initialCapacity).openQuantity = 0 := by
    have hbook := (PoolOrderBook.inv_ctor (PoolOrderBook.fits_ctor.mp hn)).2
    rw [PoolOrderBook.openQuantity]
    exact congrArg (fun k => total (Book.orders k)) hbook
  have hbal := PoolOrderBook.balance_history calls hgood hfit
  rw [hempty, Nat.zero_add] at hbal
  exact hbal

theorem quantity_conserved_tradingDay :
    let events : List PoolEvent := history PoolOrderBook.call (.ctor 1) tradingDay
    let ledger := events.foldl record []
    (events.map PoolEvent.accepted).sum =
      2 * (events.map fun e => traded (PoolEvent.trades e)).sum + tradingDayClose.openQuantity +
      (events.map PoolEvent.cancelled).sum + (events.map PoolEvent.cleared).sum +
      (events.map PoolEvent.discarded).sum ∧
    ledger.map (fun l => (l.orderId, l.submitted)) =
      events.flatMap (fun e => (PoolEvent.births e).map fun l => (l.orderId, l.submitted)) ∧
    (living ledger).Nodup ∧ ∀ l ∈ ledger, l.Balanced tradingDayClose ∧ l.traded ≤ l.submitted :=
  quantity_conserved 1 tradingDay tradingDay_fits.1 tradingDay_fits.2

end Titan
