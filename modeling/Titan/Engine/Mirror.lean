import Titan.Engine.PoolSpec
import Titan.Engine.Views

/-! Buying is selling in a mirror.

    The mirror exchanges the sides and turns the prices `1, …, m` round. It turns the price order of a
    side into the price order of the other, so the book of the mirrored orders is the mirrored book,
    and a call on it has the mirrored effect. -/

namespace Titan
open Schemes

/-! ### The mirror -/

/-- The prices `1, …, m` in reverse. -/
def mirrorPrice (m p : Price) : Price := m + 1 - p

/-- The price is one of `1, …, m`. -/
def Priced (m p : Price) : Prop := p ≠ 0 ∧ p ≤ m

instance (m p : Price) : Decidable (Priced m p) := inferInstanceAs (Decidable (_ ∧ _))

def Order.mirror (m : Price) (o : Order) : Order :=
  { o with
    side := o.side.opp
    price := if o.type = .limit then mirrorPrice m o.price else o.price }

def Trade.mirror (m : Price) (t : Trade) : Trade :=
  { t with
    price := mirrorPrice m t.price
    aggressorSide := t.aggressorSide.opp }

def Call.mirror (m : Price) : Call → Call
  | .submit o out => .submit (o.mirror m) (out.map (Trade.mirror m))
  | .cancel id => .cancel id
  | .clear => .clear

def Reply.mirror (m : Price) (r : Reply) : Reply :=
  { r with outTrades := r.outTrades.map (Trade.mirror m) }

def Book.mirror (m : Price) (k : Book) : Book := fun s => (k s.opp).map (Order.mirror m)

variable {m p q : Price} {s : Side} {o : Order}

theorem mirrorPrice_inj : mirrorPrice m p = mirrorPrice m q ↔ p = q := by
  rw [mirrorPrice, mirrorPrice]
  constructor
  · intro h
    grind
  · rintro rfl
    rfl

theorem mirrorPrice_mirrorPrice (m p : Price) : mirrorPrice m (mirrorPrice m p) = p := by
  rw [mirrorPrice, mirrorPrice]
  grind

theorem toNat_mirrorPrice (h : Priced m p) :
    (mirrorPrice m p).toNat + p.toNat = m.toNat + 1 := by
  obtain ⟨h0, hm⟩ := h
  have hpos : p.toNat ≠ 0 := fun h => h0 (UInt64.toNat_inj.mp h)
  have hle := UInt64.le_iff_toNat_le.mp hm
  have hlt := m.toNat_lt
  rw [mirrorPrice, UInt64.toNat_sub, UInt64.toNat_add]
  simp
  omega

theorem Priced.mirror (h : Priced m p) : Priced m (mirrorPrice m p) := by
  have hsum := toNat_mirrorPrice h
  obtain ⟨h0, hm⟩ := h
  have hpos : p.toNat ≠ 0 := fun h => h0 (UInt64.toNat_inj.mp h)
  have hle := UInt64.le_iff_toNat_le.mp hm
  refine ⟨fun h => ?_, UInt64.le_iff_toNat_le.mpr (by omega)⟩
  rw [h] at hsum
  simp at hsum
  omega

/-- The better price of a side is the worse one in the mirror. -/
theorem better_mirror (hp : Priced m p) (hq : Priced m q) :
    better s.opp (mirrorPrice m p) (mirrorPrice m q) ↔ better s p q := by
  have h1 := toNat_mirrorPrice hp
  have h2 := toNat_mirrorPrice hq
  cases s <;> simp only [better, Side.opp, UInt64.lt_iff_toNat_lt] <;> omega

@[simp] theorem Order.mirror_type : (o.mirror m).type = o.type := rfl

@[simp] theorem Order.mirror_side : (o.mirror m).side = o.side.opp := rfl

@[simp] theorem Order.mirror_remaining :
    (o.mirror m).remainingQuantity = o.remainingQuantity := rfl

theorem Order.mirror_price (h : o.type = .limit) : (o.mirror m).price = mirrorPrice m o.price :=
  if_pos h

/-- A limit order with a price that the mirror turns round. -/
def Order.Turns (m : Price) (o : Order) : Prop := o.type = .limit ∧ Priced m o.price

theorem Order.mirror_reaches (ho : o.type = .limit → Priced m o.price) (hp : Priced m p) :
    (o.mirror m).Reaches (mirrorPrice m p) ↔ o.Reaches p := by
  refine not_congr (and_congr_right fun hl : o.type = .limit => ?_)
  rw [mirror_price hl, mirror_side]
  exact better_mirror (ho hl) hp

theorem Order.mirror_trade {x : Order} (hx : x.type = .limit) (r : Quantity) :
    (o.mirror m).trade (x.mirror m) r = (o.trade x r).mirror m := by
  rw [Order.trade, Order.trade, Trade.mirror, mirror_price hx]
  rfl

/-! ### Fill and place in the mirror -/

theorem fill_mirror (ho : o.type = .limit → Priced m o.price) : ∀ (r : Quantity) {L : List Order},
    (∀ x ∈ L, x.Turns m) → fill (o.mirror m) r (L.map (Order.mirror m)) =
      ⟨(fill o r L).trades.map (Trade.mirror m), (fill o r L).left,
        (fill o r L).rest.map (Order.mirror m)⟩
  | r, [], _ => rfl
  | r, x :: xs, h => by
    obtain ⟨⟨hl, hp⟩, hxs⟩ := List.forall_mem_cons.mp h
    have hstop : r = 0 ∨ ¬ (o.mirror m).Reaches (x.mirror m).price ↔ r = 0 ∨ ¬ o.Reaches x.price := by
      rw [Order.mirror_price hl, Order.mirror_reaches ho hp]
    have ih := fill_mirror ho (r - x.remainingQuantity) hxs
    rw [List.map_cons]
    by_cases h1 : r = 0 ∨ ¬ o.Reaches x.price
    · rw [fill_stop _ (hstop.mpr h1), fill_stop _ h1]
      rfl
    by_cases h2 : x.remainingQuantity ≤ r
    · rw [fill_full _ (mt hstop.mp h1) h2, fill_full _ h1 h2, Order.mirror_remaining, ih,
        Order.mirror_trade hl]
      rfl
    · rw [fill_part _ (mt hstop.mp h1) h2, fill_part _ h1 h2, Order.mirror_trade hl]
      rfl

theorem place_mirror (ho : o.Turns m) : ∀ {L : List Order}, (∀ x ∈ L, x.Turns m) →
    place s.opp (o.mirror m) (L.map (Order.mirror m)) = (place s o L).map (Order.mirror m)
  | [], _ => rfl
  | x :: xs, h => by
    obtain ⟨⟨hl, hp⟩, hxs⟩ := List.forall_mem_cons.mp h
    have hbetter : better s.opp (o.mirror m).price (x.mirror m).price ↔ better s o.price x.price := by
      rw [Order.mirror_price hl, Order.mirror_price ho.1]
      exact better_mirror ho.2 hp
    rw [List.map_cons, place, place]
    by_cases h1 : better s o.price x.price
    · rw [if_pos (hbetter.mpr h1), if_pos h1]
      rfl
    · rw [if_neg (mt hbetter.mp h1), if_neg h1, place_mirror ho hxs]
      rfl

namespace Book
variable {k : Book}

/-- All orders are turned round by the mirror. -/
def Turns (m : Price) (k : Book) : Prop := ∀ s, ∀ o ∈ k s, o.Turns m

theorem orders_mirror (m : Price) (k : Book) :
    (k.mirror m).orders.Perm (k.orders.map (Order.mirror m)) := by
  rw [orders, orders, List.map_append]
  exact List.perm_append_comm

theorem find?_mirror_none {id : OrderId} : (k.mirror m).find? id = none ↔ k.find? id = none := by
  rw [find?_eq_none_iff, find?_eq_none_iff]
  constructor
  · intro h o ho
    exact h (o.mirror m) ((orders_mirror m k).mem_iff.mpr (List.mem_map_of_mem ho))
  · intro h x hx
    obtain ⟨o, ho, rfl⟩ := List.mem_map.mp ((orders_mirror m k).mem_iff.mp hx)
    exact h o ho

theorem find?_mirror (hk : (k.orders.map (·.orderId)).Nodup) (id : OrderId) :
    (k.mirror m).find? id = (k.find? id).map (Order.mirror m) := by
  cases h : k.find? id with
  | none => exact find?_mirror_none.mpr h
  | some o =>
    obtain ⟨ho, hid⟩ := (find?_eq_some_iff hk).mp h
    have hids : ((k.mirror m).orders.map (·.orderId)).Nodup := by
      rw [((orders_mirror m k).map _).nodup_iff, List.map_map]
      exact hk
    refine (find?_eq_some_iff hids).mpr ⟨?_, hid⟩
    exact (orders_mirror m k).mem_iff.mpr (List.mem_map_of_mem ho)

theorem mirror_setSide (k : Book) (s : Side) (xs : List Order) :
    (k.setSide s xs).mirror m = (k.mirror m).setSide s.opp (xs.map (Order.mirror m)) := by
  refine ext_sides s.opp ?_ ?_
  · rw [mirror, Side.opp_opp, setSide_self, setSide_self]
  · rw [setSide_opp, mirror, mirror, Side.opp_opp, setSide_opp]

theorem mirror_accepts (ho : o.type = .limit → Priced m o.price) :
    (k.mirror m).Accepts (o.mirror m) ↔ k.Accepts o := by
  refine and_congr_right fun _ => and_congr ?_ find?_mirror_none
  refine not_congr (and_congr_right fun hl : o.type = .limit => ?_)
  rw [Order.mirror_price hl]
  exact iff_of_false (ho hl).mirror.1 (ho hl).1

theorem mirror_fillOf (ho : o.type = .limit → Priced m o.price) (hk : k.Turns m) :
    (k.mirror m).fillOf (o.mirror m) = ⟨(k.fillOf o).trades.map (Trade.mirror m),
      (k.fillOf o).left, (k.fillOf o).rest.map (Order.mirror m)⟩ := by
  have hfill := fill_mirror ho o.effective (hk o.side.opp)
  rw [fillOf, Order.mirror_side, mirror, Side.opp_opp]
  exact hfill

theorem mirror_rest (ho : o.Turns m) (hk : ∀ x ∈ k o.side, x.Turns m) :
    (k.mirror m).rest (o.mirror m) = (k.rest o).mirror m := by
  have hown : k.mirror m o.side.opp = (k o.side).map (Order.mirror m) := by
    rw [mirror, Side.opp_opp]
  rw [rest, rest, mirror_setSide, Order.mirror_side, hown, place_mirror ho hk]

theorem mirror_accept (ho : o.type = .limit → Priced m o.price) (hk : k.Turns m) :
    (k.mirror m).accept (o.mirror m) = (k.accept o).mirror m := by
  rw [accept, accept, mirror_fillOf ho hk]
  dsimp only
  rw [Order.mirror_side, Order.mirror_type, ← mirror_setSide]
  split_ifs with hrest
  · refine mirror_rest (o := { o with remainingQuantity := (k.fillOf o).left })
      ⟨hrest.2, ho hrest.2⟩ ?_
    rw [setSide_of_opp]
    exact hk o.side
  · rfl

end Book

/-- The prices of limit orders are turned round by the mirror. -/
def Call.Turns (m : Price) : Call → Prop
  | .submit o _ => o.type = .limit → Priced m o.price
  | .cancel _ | .clear => True

instance (m : Price) : ∀ c : Call, Decidable (c.Turns m)
  | .submit _ _ => inferInstanceAs (Decidable (_ → _))
  | .cancel _ | .clear => inferInstanceAs (Decidable True)

namespace Book
variable {k : Book}

/-- A call on the mirrored book is the mirrored call. -/
theorem mirror_call (hk : k.Turns m) : ∀ {c : Call}, c.Turns m →
    (k.mirror m).call (c.mirror m) = ((k.call c).1.mirror m, (k.call c).2.mirror m)
  | .submit o out, ho => by
    rw [Call.mirror, call, call, submit, submit, mirror_fillOf ho hk, mirror_accept ho hk]
    simp only [mirror_accepts ho]
    split_ifs <;> simp [Reply.mirror]
  | .cancel id, _ => by
    have hfind : ((k.mirror m).find? id).isSome = (k.find? id).isSome := by
      rw [Bool.eq_iff_iff, Option.isSome_iff_ne_none, Option.isSome_iff_ne_none, Ne,
        find?_mirror_none]
    rw [Call.mirror, call, call, cancel, cancel, hfind]
    refine Prod.ext rfl (funext fun s => ?_)
    exact List.filter_map
  | .clear, _ => rfl

/-- The mirror turns round what a call leaves of the book. -/
theorem Turns.call (hk : k.Turns m) : ∀ {c : Call}, c.Turns m → (k.call c).2.Turns m
  | .submit o out, ho => by
    show (k.submit o).2.2.Turns m
    rw [submit]
    split_ifs
    swap
    · exact hk
    intro s x hx
    dsimp only at hx
    rcases o.side.eq_or_eq_opp s with rfl | rfl
    · rw [accept_own] at hx
      split_ifs at hx with hrest
      · rcases mem_place.mp hx with rfl | hx
        · exact ⟨hrest.2, ho hrest.2⟩
        · exact hk _ x hx
      · exact hk _ x hx
    · rw [accept_opp] at hx
      obtain ⟨y, hy, hcore⟩ := List.mem_map.mp
        ((rest_suffix ..).subset (List.mem_map_of_mem (f := Order.core) hx))
      obtain ⟨hl, hp⟩ := hk _ y hy
      have htype : y.core.type = x.core.type := congrArg Order.type hcore
      exact ⟨htype.symm.trans hl, Order.price_of_core hcore ▸ hp⟩
  | .cancel id, _ => fun s x hx => hk s x (List.mem_of_mem_filter hx)
  | .clear, _ => nofun

theorem length_orders_mirror (m : Price) (k : Book) :
    (k.mirror m).orders.length = k.orders.length := by
  rw [(orders_mirror m k).length_eq, List.length_map]

theorem capacityAfter_mirror (hk : k.Turns m) (capacity : ℕ) : ∀ {c : Call}, c.Turns m →
    (k.mirror m).capacityAfter capacity (c.mirror m) = k.capacityAfter capacity c
  | .submit o out, ho => by
    rw [Call.mirror, capacityAfter, capacityAfter, mirror_fillOf ho hk]
    simp only [mirror_accepts ho, Order.mirror_side, ← mirror_setSide, length_orders_mirror,
      Order.mirror_type]
  | .cancel _, _ | .clear, _ => rfl

theorem bestPrice_mirror (hk : k.Turns m) (s : Side) :
    (k.mirror m).bestPrice s = (k.bestPrice s.opp).map (mirrorPrice m) := by
  rw [bestPrice, bestPrice, mirror]
  cases h : k s.opp with
  | nil => rfl
  | cons x xs =>
    have hx := hk s.opp x (by simp [h])
    simp [Order.mirror_price hx.1]

theorem queueAt_mirror (hk : k.Turns m) (s : Side) (p : Price) : (k.mirror m).queueAt s p =
    (k.queueAt s.opp (mirrorPrice m p)).map (Order.mirror m) := by
  rw [queueAt, queueAt, mirror, List.filter_map]
  refine congrArg _ (List.filter_congr fun x hx => ?_)
  have hback : mirrorPrice m x.price = p ↔ x.price = mirrorPrice m p := by
    rw [← mirrorPrice_inj (m := m), mirrorPrice_mirrorPrice]
  simp [Order.mirror_price (hk _ x hx).1, hback]

end Book

/-! ### Mirrored runs -/

namespace PoolOrderBook
variable {b b' : PoolOrderBook}

/-- Each pool answers as the other one in the mirror. -/
structure Mirrored (m : Price) (b b' : PoolOrderBook) : Prop where
  bestBid : b'.bestBid = b.bestAsk.map (mirrorPrice m)
  bestAsk : b'.bestAsk = b.bestBid.map (mirrorPrice m)
  getOrder : ∀ id, b'.getOrder id = (b.getOrder id).map (Order.mirror m)
  queue : ∀ s p, b'.levelOrders s p =
    (b.levelOrders s.opp (mirrorPrice m p)).map (Order.mirror m)
  /-- The queues of a side, best level first. -/
  resting : ∀ s, b'.resting s = (b.resting s.opp).map (Order.mirror m)

/-- The second pool stands for the mirrored book of the first, and has its capacity. -/
structure Mirrors (m : Price) (b b' : PoolOrderBook) : Prop where
  good : b.Good
  turns : b.book.Turns m
  inv : b'.Inv
  book : b'.book = b.book.mirror m
  capacity : b'.poolCapacity = b.poolCapacity

theorem Mirrors.mirrored (h : Mirrors m b b') : Mirrored m b b' where
  bestBid := by
    rw [h.inv.bestBid_eq, h.book, Book.bestPrice_mirror h.turns, h.good.1.bestAsk_eq]
    rfl
  bestAsk := by
    rw [h.inv.bestAsk_eq, h.book, Book.bestPrice_mirror h.turns, h.good.1.bestBid_eq]
    rfl
  getOrder id := by
    rw [h.inv.getOrder_eq, h.book, Book.find?_mirror h.good.2.ids, h.good.1.getOrder_eq]
  queue s p := by
    rw [h.inv.shape.levelOrders_eq, h.book, Book.queueAt_mirror h.turns,
      h.good.1.shape.levelOrders_eq]
  resting s := congrFun h.book s

theorem Mirrors.call (h : Mirrors m b b') {c : Call} (hc : c.Turns m) (hfit : (b.call c).2.Fits) :
    (b'.call (c.mirror m)).1 = (b.call c).1.mirror m ∧
      Mirrors m (b.call c).2 (b'.call (c.mirror m)).2 := by
  have hcap : (b'.call (c.mirror m)).2.poolCapacity = (b.call c).2.poolCapacity := by
    rw [h.inv.capacity_call, h.good.1.capacity_call, h.book, h.capacity,
      Book.capacityAfter_mirror h.turns _ hc]
  have hfit' : (b'.call (c.mirror m)).2.Fits := by
    rw [Fits, hcap]
    exact hfit
  obtain ⟨-, hreply, hbook⟩ := call_spec h.good.1 c hfit
  obtain ⟨hinv', hreply', hbook'⟩ := call_spec h.inv (c.mirror m) hfit'
  rw [h.book, Book.mirror_call h.turns hc] at hreply' hbook'
  refine ⟨by rw [hreply', hreply], good_call b c h.good hfit, ?_, hinv', ?_, hcap⟩
  · rw [hbook]
    exact h.turns.call hc
  · rw [hbook', hbook]

theorem mirrors_ctor {n : ℕ} (hn : (ctor n).Fits) (m : Price) : Mirrors m (ctor n) (ctor n) := by
  obtain ⟨hinv, hbook⟩ := inv_ctor (fits_ctor.mp hn)
  refine ⟨good_ctor hn, ?_, hinv, ?_, rfl⟩
  · rw [hbook]
    nofun
  · rw [hbook]
    rfl

/-- The mirrored run has mirrored replies, and its states answer in the mirror. -/
theorem mirror_run (m : Price) (initialCapacity : ℕ) (calls : List Call)
    (hn : (ctor initialCapacity).Fits)
    (hfit : ∀ e ∈ history call (ctor initialCapacity) calls, e.after.Fits)
    (hprices : ∀ c ∈ calls, c.Turns m) :
    List.Forall₂ (fun e f => f.call = e.call.mirror m ∧ f.reply = e.reply.mirror m ∧
        Mirrored m e.before f.before ∧ Mirrored m e.after f.after)
      (history call (ctor initialCapacity) calls)
      (history call (ctor initialCapacity) (calls.map (Call.mirror m))) := by
  have hcalls : List.Forall₂ (fun c c' => c.Turns m ∧ c' = c.mirror m) calls
      (calls.map (Call.mirror m)) := by
    rw [List.forall₂_map_right_iff]
    exact List.forall₂_same.mpr fun c hc => ⟨hprices c hc, rfl⟩
  have hstep : ∀ s t c c', Mirrors m s t → (c.Turns m ∧ c' = c.mirror m) → (call s c).2.Fits →
      True → (call t c').1 = (call s c).1.mirror m ∧ Mirrors m (call s c).2 (call t c').2 := by
    rintro s t c _ hm ⟨hc, rfl⟩ hs -
    exact hm.call hc hs
  have hrel := (history_related (Q := fun r r' => r' = r.mirror m) (W := fun _ => True) hstep hcalls
    (mirrors_ctor hn m) hfit fun _ _ => trivial).1
  refine hrel.imp ?_
  rintro e f ⟨⟨-, hc⟩, hr, hbefore, hafter⟩
  exact ⟨hc, hr, hbefore.mirrored, hafter.mirrored⟩

theorem mirror_run_tradingDay :
    List.Forall₂ (fun e f => f.call = e.call.mirror 200 ∧ f.reply = e.reply.mirror 200 ∧
        Mirrored 200 e.before f.before ∧ Mirrored 200 e.after f.after)
      (history call (ctor 1) tradingDay)
      (history call (ctor 1) (tradingDay.map (Call.mirror 200))) :=
  mirror_run 200 1 tradingDay tradingDay_fits.1 tradingDay_fits.2 (by decide)

end PoolOrderBook

end Titan
