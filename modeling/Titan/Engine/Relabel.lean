import Titan.Engine.Flush
import Titan.Engine.PoolSpec

/-! Names do not matter.

    The engine compares ids for equality and prices by their order, and it copies time stamps. So if a
    run is given other ids, prices that stand in the same order and any other time stamps, all that
    changes is that the replies and the queries show the new names. -/

namespace Titan
open Schemes

/-- New ids, prices and time stamps. -/
structure Relabelling where
  id : OrderId → OrderId
  price : Price → Price
  time : Timestamp → Timestamp

/-- Different ids stay different, and among `prices` the order and the zero stay. -/
structure Relabelling.Faithful (ρ : Relabelling) (prices : Set Price) : Prop where
  id : Function.Injective ρ.id
  price : ∀ p ∈ prices, ∀ q ∈ prices, p < q → ρ.price p < ρ.price q
  zero : ∀ p ∈ prices, ρ.price p = 0 ↔ p = 0

def Order.relabel (ρ : Relabelling) (o : Order) : Order :=
  { o with
    orderId := ρ.id o.orderId
    price := ρ.price o.price
    timestamp := ρ.time o.timestamp }

def Trade.relabel (ρ : Relabelling) (t : Trade) : Trade :=
  { t with
    makerOrderId := ρ.id t.makerOrderId
    takerOrderId := ρ.id t.takerOrderId
    price := ρ.price t.price
    timestamp := ρ.time t.timestamp }

def Call.relabel (ρ : Relabelling) : Call → Call
  | .submit o out => .submit (o.relabel ρ) (out.map (Trade.relabel ρ))
  | .cancel id => .cancel (ρ.id id)
  | .clear => .clear

def Reply.relabel (ρ : Relabelling) (r : Reply) : Reply :=
  { r with outTrades := r.outTrades.map (Trade.relabel ρ) }

def Book.relabel (ρ : Relabelling) (k : Book) : Book := fun s => (k s).map (Order.relabel ρ)

/-- Limit orders are priced among `prices`. -/
def Order.PricedIn (prices : Set Price) (o : Order) : Prop := o.type = .limit → o.price ∈ prices

def Call.PricedIn (prices : Set Price) : Call → Prop
  | .submit o _ => o.PricedIn prices
  | .cancel _ | .clear => True

/-- All orders rest at `prices`. -/
def Book.PricedIn (prices : Set Price) (k : Book) : Prop := ∀ s, ∀ o ∈ k s, o.price ∈ prices

variable {ρ : Relabelling} {prices : Set Price} {p q : Price} {s : Side} {o x : Order}
  {id : OrderId}

namespace Relabelling.Faithful

theorem better_iff (h : ρ.Faithful prices) (hp : p ∈ prices) (hq : q ∈ prices) :
    better s (ρ.price p) (ρ.price q) ↔ better s p q := by
  have hmono : ∀ {p q}, p ∈ prices → q ∈ prices → better s p q →
      better s (ρ.price p) (ρ.price q) := by
    intro p q hp hq hb
    cases s with
    | buy => exact h.price q hq p hp hb
    | sell => exact h.price p hp q hq hb
  refine ⟨fun hb => ?_, hmono hp hq⟩
  rcases trichotomous_of (better s) p q with hlt | rfl | hgt
  · exact hlt
  · exact absurd hb (better_irrefl s _)
  · exact absurd hb (better_asymm (hmono hq hp hgt))

theorem price_inj (h : ρ.Faithful prices) (hp : p ∈ prices) (hq : q ∈ prices) :
    ρ.price p = ρ.price q ↔ p = q := by
  refine ⟨fun heq => ?_, congrArg ρ.price⟩
  rcases trichotomous_of (better .sell) p q with hlt | heq' | hgt
  · exact absurd (heq ▸ (h.better_iff hp hq).mpr hlt) (better_irrefl _ _)
  · exact heq'
  · exact absurd (heq ▸ (h.better_iff hq hp).mpr hgt) (better_irrefl _ _)

theorem reaches_iff (h : ρ.Faithful prices) (ho : o.PricedIn prices) (hp : p ∈ prices) :
    (o.relabel ρ).Reaches (ρ.price p) ↔ o.Reaches p :=
  not_congr (and_congr_right fun hl => h.better_iff (ho hl) hp)

end Relabelling.Faithful

@[simp] theorem Order.relabel_side : (o.relabel ρ).side = o.side := rfl

@[simp] theorem Order.relabel_type : (o.relabel ρ).type = o.type := rfl

@[simp] theorem Order.relabel_price : (o.relabel ρ).price = ρ.price o.price := rfl

@[simp] theorem Order.relabel_orderId : (o.relabel ρ).orderId = ρ.id o.orderId := rfl

@[simp] theorem Order.relabel_remaining :
    (o.relabel ρ).remainingQuantity = o.remainingQuantity := rfl

/-! ### Fill and place -/

theorem fill_relabel (h : ρ.Faithful prices) (ho : o.PricedIn prices) (r : Quantity)
    {L : List Order} (hL : ∀ m ∈ L, m.price ∈ prices) :
    fill (o.relabel ρ) r (L.map (Order.relabel ρ)) =
      ⟨(fill o r L).trades.map (Trade.relabel ρ), (fill o r L).left,
        (fill o r L).rest.map (Order.relabel ρ)⟩ := by
  induction L generalizing r with
  | nil => rfl
  | cons m ms ih =>
    obtain ⟨hm, hms⟩ := List.forall_mem_cons.mp hL
    have hstop : r = 0 ∨ ¬ (o.relabel ρ).Reaches (m.relabel ρ).price ↔ r = 0 ∨ ¬ o.Reaches m.price := by
      rw [Order.relabel_price, h.reaches_iff ho hm]
    rw [List.map_cons]
    by_cases h1 : r = 0 ∨ ¬ o.Reaches m.price
    · rw [fill_stop _ (hstop.mpr h1), fill_stop _ h1]
      rfl
    by_cases h2 : m.remainingQuantity ≤ r
    · rw [fill_full _ (mt hstop.mp h1) h2, fill_full _ h1 h2, Order.relabel_remaining, ih _ hms]
      rfl
    · rw [fill_part _ (mt hstop.mp h1) h2, fill_part _ h1 h2]
      rfl

theorem place_relabel (h : ρ.Faithful prices) (ho : o.price ∈ prices) {L : List Order}
    (hL : ∀ m ∈ L, m.price ∈ prices) :
    place s (o.relabel ρ) (L.map (Order.relabel ρ)) = (place s o L).map (Order.relabel ρ) := by
  induction L with
  | nil => rfl
  | cons m ms ih =>
    obtain ⟨hm, hms⟩ := List.forall_mem_cons.mp hL
    have hbetter : better s (o.relabel ρ).price (m.relabel ρ).price ↔ better s o.price m.price :=
      h.better_iff ho hm
    rw [List.map_cons, place, place]
    by_cases h1 : better s o.price m.price
    · rw [if_pos (hbetter.mpr h1), if_pos h1]
      rfl
    · rw [if_neg (mt hbetter.mp h1), if_neg h1, ih hms]
      rfl

namespace Book
variable {k : Book}

theorem orders_relabel (ρ : Relabelling) (k : Book) :
    (k.relabel ρ).orders = k.orders.map (Order.relabel ρ) := List.map_append.symm

theorem find?_relabel (h : ρ.Faithful prices) (k : Book) (id : OrderId) :
    (k.relabel ρ).find? (ρ.id id) = (k.find? id).map (Order.relabel ρ) := by
  rw [find?, find?, orders_relabel, List.find?_map]
  refine congrArg _ (congrArg (fun f => k.orders.find? f) (funext fun m => ?_))
  simp [h.id.eq_iff]

theorem relabel_setSide (k : Book) (s : Side) (xs : List Order) :
    (k.setSide s xs).relabel ρ = (k.relabel ρ).setSide s (xs.map (Order.relabel ρ)) := by
  refine ext_sides s ?_ ?_
  · rw [relabel, setSide_self, setSide_self]
  · rw [setSide_opp, relabel, relabel, setSide_opp]

theorem relabel_accepts (h : ρ.Faithful prices) (ho : o.PricedIn prices) :
    (k.relabel ρ).Accepts (o.relabel ρ) ↔ k.Accepts o := by
  refine and_congr_right fun _ => and_congr ?_ ?_
  · exact not_congr (and_congr_right fun hl => h.zero _ (ho hl))
  · rw [Order.relabel_orderId, find?_relabel h, Option.map_eq_none_iff]

theorem relabel_fillOf (h : ρ.Faithful prices) (ho : o.PricedIn prices) (hk : k.PricedIn prices) :
    (k.relabel ρ).fillOf (o.relabel ρ) = ⟨(k.fillOf o).trades.map (Trade.relabel ρ),
      (k.fillOf o).left, (k.fillOf o).rest.map (Order.relabel ρ)⟩ :=
  fill_relabel h ho o.effective (hk o.side.opp)

theorem relabel_rest (h : ρ.Faithful prices) (ho : o.price ∈ prices)
    (hk : ∀ m ∈ k o.side, m.price ∈ prices) :
    (k.relabel ρ).rest (o.relabel ρ) = (k.rest o).relabel ρ := by
  have hown : k.relabel ρ o.side = (k o.side).map (Order.relabel ρ) := rfl
  rw [rest, rest, relabel_setSide, Order.relabel_side, hown, place_relabel h ho hk]

theorem relabel_accept (h : ρ.Faithful prices) (ho : o.PricedIn prices) (hk : k.PricedIn prices) :
    (k.relabel ρ).accept (o.relabel ρ) = (k.accept o).relabel ρ := by
  rw [accept, accept, relabel_fillOf h ho hk]
  dsimp only
  rw [Order.relabel_side, Order.relabel_type, ← relabel_setSide]
  split_ifs with hrest
  · refine relabel_rest (o := { o with remainingQuantity := (k.fillOf o).left }) h (ho hrest.2) ?_
    rw [setSide_of_opp]
    exact hk o.side
  · rfl

/-- A call under new names on the book under new names. -/
theorem relabel_call (h : ρ.Faithful prices) (hk : k.PricedIn prices) {c : Call}
    (hc : c.PricedIn prices) :
    (k.relabel ρ).call (c.relabel ρ) = ((k.call c).1.relabel ρ, (k.call c).2.relabel ρ) := by
  cases c with
  | submit o out =>
    rw [Call.relabel, call, call, submit, submit, relabel_fillOf h hc hk, relabel_accept h hc hk]
    simp only [relabel_accepts h hc]
    split_ifs <;> simp [Reply.relabel]
  | cancel id =>
    rw [Call.relabel, call, call, cancel, cancel, find?_relabel h, Option.isSome_map]
    refine Prod.ext rfl (funext fun s => ?_)
    have hfilter : (fun m => decide ((Order.relabel ρ m).orderId ≠ ρ.id id)) =
        fun m : Order => decide (m.orderId ≠ id) := by
      funext m
      simp [h.id.eq_iff]
    show ((k s).map (Order.relabel ρ)).filter _ = ((k s).filter _).map (Order.relabel ρ)
    rw [List.filter_map, ← hfilter]
    rfl
  | clear => rfl

theorem PricedIn.left (hk : k.PricedIn prices) : ∀ m ∈ (k.fillOf o).rest, m.price ∈ prices := by
  intro m hm
  obtain ⟨y, hy, hcore⟩ := List.mem_map.mp
    ((rest_suffix ..).subset (List.mem_map_of_mem (f := Order.core) hm))
  exact Order.price_of_core hcore ▸ hk _ y hy

/-- What a call leaves of the book, and adds to it, is priced among `prices`. -/
theorem PricedIn.call (hk : k.PricedIn prices) {c : Call} (hc : c.PricedIn prices) :
    (k.call c).2.PricedIn prices := by
  cases c with
  | submit o out =>
    have hcall : (k.call (.submit o out)).2 = (k.submit o).2.2 := rfl
    rw [hcall, submit]
    split_ifs
    swap
    · exact hk
    intro s m hm
    dsimp only at hm
    rcases o.side.eq_or_eq_opp s with rfl | rfl
    · rw [accept_own] at hm
      split_ifs at hm with hrest
      · rcases mem_place.mp hm with rfl | hm
        · exact hc hrest.2
        · exact hk _ m hm
      · exact hk _ m hm
    · rw [accept_opp] at hm
      exact hk.left m hm
  | cancel id => exact fun s m hm => hk s m (List.mem_of_mem_filter hm)
  | clear => exact fun s m hm => absurd hm List.not_mem_nil

theorem queueAt_relabel (h : ρ.Faithful prices) (hk : k.PricedIn prices) (s : Side)
    (hp : p ∈ prices) :
    (k.relabel ρ).queueAt s (ρ.price p) = (k.queueAt s p).map (Order.relabel ρ) := by
  rw [queueAt, queueAt, relabel, List.filter_map]
  refine congrArg _ (List.filter_congr fun m hm => ?_)
  simp [h.price_inj (hk s m hm) hp]

theorem capacityAfter_relabel (h : ρ.Faithful prices) (hk : k.PricedIn prices) (capacity : ℕ)
    {c : Call} (hc : c.PricedIn prices) :
    (k.relabel ρ).capacityAfter capacity (c.relabel ρ) = k.capacityAfter capacity c := by
  cases c with
  | submit o out =>
    rw [Call.relabel, capacityAfter, capacityAfter, relabel_fillOf h hc hk]
    simp only [relabel_accepts h hc, Order.relabel_side, ← relabel_setSide, orders_relabel,
      List.length_map, Order.relabel_type]
  | cancel _ | clear => rfl

theorem bestPrice_relabel (ρ : Relabelling) (k : Book) (s : Side) :
    (k.relabel ρ).bestPrice s = (k.bestPrice s).map ρ.price := by
  rw [bestPrice, bestPrice, relabel, List.head?_map, Option.map_map, Option.map_map]
  rfl

theorem length_prices_relabel (h : ρ.Faithful prices) (hk : k.PricedIn prices) (s : Side) :
    ((k.relabel ρ).prices s).length = (k.prices s).length := by
  have hmap : ((k.relabel ρ) s).map (·.price) = ((k s).map (·.price)).map ρ.price := by
    rw [relabel, List.map_map, List.map_map]
    rfl
  have hinj : Set.InjOn ρ.price {p | p ∈ (k s).map (·.price)} := by
    intro p hp q hq heq
    obtain ⟨x, hx, rfl⟩ := List.mem_map.mp hp
    obtain ⟨y, hy, rfl⟩ := List.mem_map.mp hq
    exact (h.price_inj (hk s x hx) (hk s y hy)).mp heq
  have hperm : (((k s).map (·.price)).map ρ.price).dedup.Perm
      (((k s).map (·.price)).dedup.map ρ.price) := by
    refine (List.perm_ext_iff_of_nodup (List.nodup_dedup _) ?_).mpr fun p => ?_
    · exact (List.nodup_dedup _).map_on fun p hp q hq =>
        hinj (List.mem_dedup.mp hp) (List.mem_dedup.mp hq)
    · simp [List.mem_dedup]
  rw [Book.prices, Book.prices, hmap, hperm.length_eq, List.length_map]

/-- The level counters after a call under new names. -/
theorem countersAfter_relabel (h : ρ.Faithful prices) (hk : k.PricedIn prices)
    {v v' : Side → Price → Quantity} (hv : ∀ s, ∀ p ∈ prices, v' s (ρ.price p) = v s p) {c : Call}
    (hc : c.PricedIn prices) (s : Side) (hp : p ∈ prices) :
    (k.relabel ρ).countersAfter v' (c.relabel ρ) s (ρ.price p) = k.countersAfter v c s p := by
  cases c with
  | submit o out =>
    have hmatched : (k.setSide o.side.opp (k.fillOf o).rest).PricedIn prices := by
      intro t m hm
      rcases o.side.eq_or_eq_opp t with rfl | rfl
      · rw [setSide_of_opp] at hm
        exact hk _ m hm
      · rw [setSide_self] at hm
        exact hk.left m hm
    have hqueue := queueAt_relabel h hmatched s hp
    rw [relabel_setSide] at hqueue
    have hlevel : ((k.fillOf o).left ≠ 0 ∧ o.type = .limit) ∧ s = o.side ∧ ρ.price o.price = ρ.price p ↔
        ((k.fillOf o).left ≠ 0 ∧ o.type = .limit) ∧ s = o.side ∧ o.price = p :=
      and_congr_right fun hr => and_congr_right fun _ => h.price_inj (hc hr.2) hp
    rw [Call.relabel, countersAfter, countersAfter, relabel_fillOf h hc hk]
    simp only [relabel_accepts h hc, Order.relabel_side, Order.relabel_type, Order.relabel_price,
      hqueue, List.map_eq_nil_iff, hv s p hp, hlevel]
  | cancel id =>
    have hcall : ((k.relabel ρ).cancel (ρ.id id)).2 = (k.cancel id).2.relabel ρ :=
      congrArg Prod.snd (relabel_call h hk (c := .cancel id) trivial)
    have hqueue := queueAt_relabel h (hk.call (c := .cancel id) trivial) s hp
    have hafter : (k.call (.cancel id)).2 = (k.cancel id).2 := rfl
    rw [hafter] at hqueue
    rw [Call.relabel, countersAfter, countersAfter, hcall, hqueue, find?_relabel h]
    simp only [List.map_eq_nil_iff, hv s p hp]
    cases hf : k.find? id with
    | none => rfl
    | some m =>
      obtain ⟨t, ht⟩ := exists_mem_side (List.mem_of_find?_eq_some hf)
      simp only [Option.map_some, Order.relabel_side, Order.relabel_price,
        h.price_inj (hk t m ht) hp, Order.relabel_remaining]
  | clear => rfl

end Book

/-! ### Runs under new names -/

namespace PoolOrderBook
variable {b b' : PoolOrderBook}

/-- The second pool answers as the first one does, under new names. -/
structure Relabelled (ρ : Relabelling) (prices : Set Price) (b b' : PoolOrderBook) : Prop where
  hasOrder : ∀ id, b'.hasOrder (ρ.id id) = b.hasOrder id
  getOrder : ∀ id, b'.getOrder (ρ.id id) = (b.getOrder id).map (Order.relabel ρ)
  bestBid : b'.bestBid = b.bestBid.map ρ.price
  bestAsk : b'.bestAsk = b.bestAsk.map ρ.price
  totalOrders : b'.totalOrders = b.totalOrders
  bidLevels : b'.bidLevels = b.bidLevels
  askLevels : b'.askLevels = b.askLevels
  queue : ∀ s, ∀ p ∈ prices,
    b'.levelOrders s (ρ.price p) = (b.levelOrders s p).map (Order.relabel ρ)
  volume : ∀ s, ∀ p ∈ prices, b'.volumeAtPrice s (ρ.price p) = b.volumeAtPrice s p
  capacity : b'.poolCapacity = b.poolCapacity

/-- The second pool stands for the book of the first under new names, with the same counters and the
    same capacity. -/
structure Relabels (ρ : Relabelling) (prices : Set Price) (b b' : PoolOrderBook) : Prop where
  good : b.Good
  priced : b.book.PricedIn prices
  inv : b'.Inv
  book : b'.book = b.book.relabel ρ
  volume : ∀ s, ∀ p ∈ prices, b'.volumeAtPrice s (ρ.price p) = b.volumeAtPrice s p
  capacity : b'.poolCapacity = b.poolCapacity

theorem Relabels.relabelled (hρ : ρ.Faithful prices) (h : Relabels ρ prices b b') :
    Relabelled ρ prices b b' where
  hasOrder id := by
    rw [h.inv.hasOrder_eq, h.book, Book.find?_relabel hρ, Option.isSome_map, h.good.1.hasOrder_eq]
  getOrder id := by rw [h.inv.getOrder_eq, h.book, Book.find?_relabel hρ, h.good.1.getOrder_eq]
  bestBid := by rw [h.inv.bestBid_eq, h.book, Book.bestPrice_relabel, h.good.1.bestBid_eq]
  bestAsk := by rw [h.inv.bestAsk_eq, h.book, Book.bestPrice_relabel, h.good.1.bestAsk_eq]
  totalOrders := by
    rw [h.inv.totalOrders_eq, h.book, Book.orders_relabel, List.length_map, h.good.1.totalOrders_eq]
  bidLevels := by
    have hsize : (b'.levels .buy).size = (b.levels .buy).size := by
      rw [h.inv.levels_size, h.book, Book.length_prices_relabel hρ h.priced, h.good.1.levels_size]
    exact hsize
  askLevels := by
    have hsize : (b'.levels .sell).size = (b.levels .sell).size := by
      rw [h.inv.levels_size, h.book, Book.length_prices_relabel hρ h.priced, h.good.1.levels_size]
    exact hsize
  queue s p hp := by
    rw [h.inv.shape.levelOrders_eq, h.book, Book.queueAt_relabel hρ h.priced s hp,
      h.good.1.shape.levelOrders_eq]
  volume := h.volume
  capacity := h.capacity

theorem Relabels.call (hρ : ρ.Faithful prices) (h : Relabels ρ prices b b') {c : Call}
    (hc : c.PricedIn prices) (hfit : (b.call c).2.Fits) :
    (b'.call (c.relabel ρ)).1 = (b.call c).1.relabel ρ ∧
      Relabels ρ prices (b.call c).2 (b'.call (c.relabel ρ)).2 := by
  have hcap : (b'.call (c.relabel ρ)).2.poolCapacity = (b.call c).2.poolCapacity := by
    rw [h.inv.capacity_call, h.good.1.capacity_call, h.book, h.capacity,
      Book.capacityAfter_relabel hρ h.priced _ hc]
  have hfit' : (b'.call (c.relabel ρ)).2.Fits := by
    rw [Fits, hcap]
    exact hfit
  obtain ⟨-, hreply, hbook⟩ := call_spec h.good.1 c hfit
  obtain ⟨hinv', hreply', hbook'⟩ := call_spec h.inv (c.relabel ρ) hfit'
  rw [h.book, Book.relabel_call hρ h.priced hc] at hreply' hbook'
  refine ⟨by rw [hreply', hreply], good_call b c h.good hfit, ?_, hinv', ?_, ?_, hcap⟩
  · rw [hbook]
    exact h.priced.call hc
  · rw [hbook', hbook]
  · intro s p hp
    rw [volume_call h.inv _ hfit', volume_call h.good.1 c hfit, h.book]
    exact Book.countersAfter_relabel hρ h.priced h.volume hc s hp

theorem relabels_ctor {n : ℕ} (hn : (ctor n).Fits) : Relabels ρ prices (ctor n) (ctor n) := by
  obtain ⟨hinv, hbook⟩ := inv_ctor (fits_ctor.mp hn)
  refine ⟨good_ctor hn, ?_, hinv, ?_, fun s p _ => ?_, rfl⟩
  · rw [hbook]
    exact fun _ _ hm => absurd hm List.not_mem_nil
  · rw [hbook]
    rfl
  · rw [volume_of_no_orders hinv hbook]

/-- A run under new ids, new time stamps and prices in the same order has the replies of the old run
    under the new names, and every query gives the old answer under the new names. -/
theorem relabel_run (hρ : ρ.Faithful prices) (initialCapacity : ℕ) (calls : List Call)
    (hprices : ∀ c ∈ calls, c.PricedIn prices) (hn : (ctor initialCapacity).Fits)
    (hfit : ∀ e ∈ history call (ctor initialCapacity) calls, e.after.Fits) :
    List.Forall₂ (fun e f => f.call = e.call.relabel ρ ∧ f.reply = e.reply.relabel ρ ∧
        Relabelled ρ prices e.before f.before ∧ Relabelled ρ prices e.after f.after)
      (history call (ctor initialCapacity) calls)
      (history call (ctor initialCapacity) (calls.map (Call.relabel ρ))) := by
  have hcalls : List.Forall₂ (fun c c' => c.PricedIn prices ∧ c' = c.relabel ρ) calls
      (calls.map (Call.relabel ρ)) := by
    rw [List.forall₂_map_right_iff]
    exact List.forall₂_same.mpr fun c hc => ⟨hprices c hc, rfl⟩
  have hstep : ∀ s t c c', Relabels ρ prices s t → (c.PricedIn prices ∧ c' = c.relabel ρ) →
      (call s c).2.Fits → True → (call t c').1 = (call s c).1.relabel ρ ∧
        Relabels ρ prices (call s c).2 (call t c').2 := by
    rintro s t c _ hr ⟨hc, rfl⟩ hs -
    exact hr.call hρ hc hs
  have hrel := (history_related (Q := fun r r' => r' = r.relabel ρ) (W := fun _ => True) hstep hcalls
    (relabels_ctor hn) hfit fun _ _ => trivial).1
  refine hrel.imp ?_
  rintro e f ⟨⟨-, hc⟩, hr, hbefore, hafter⟩
  exact ⟨hc, hr, hbefore.relabelled hρ, hafter.relabelled hρ⟩

/-- Ids are told apart by their complement, prices are cents for ticks, and no time is kept. -/
def inCents : Relabelling := ⟨fun id => ~~~ id, fun p => 100 * p, fun _ => 0⟩

theorem toNat_inCents {p : Price} (h : p < 1000) : (inCents.price p).toNat = 100 * p.toNat := by
  have hlt : p.toNat < 1000 := UInt64.lt_iff_toNat_lt.mp h
  have hmul : (inCents.price p).toNat = 100 * p.toNat % 2 ^ 64 := UInt64.toNat_mul ..
  omega

theorem inCents_faithful : inCents.Faithful {p | p < 1000} where
  id _ _ h := by simpa [inCents] using h
  price p hp q hq hlt := by
    have hlt' := UInt64.lt_iff_toNat_lt.mp hlt
    rw [UInt64.lt_iff_toNat_lt, toNat_inCents hp, toNat_inCents hq]
    omega
  zero p hp := by
    rw [← UInt64.toNat_inj, ← UInt64.toNat_inj, toNat_inCents hp]
    simp

theorem relabel_run_tradingDay :
    List.Forall₂ (fun e f => f.call = e.call.relabel inCents ∧ f.reply = e.reply.relabel inCents ∧
        Relabelled inCents {p | p < 1000} e.before f.before ∧
        Relabelled inCents {p | p < 1000} e.after f.after)
      (history call (ctor 1) tradingDay)
      (history call (ctor 1) (tradingDay.map (Call.relabel inCents))) :=
  relabel_run inCents_faithful 1 tradingDay
    (by simp [tradingDay, Call.PricedIn, Order.PricedIn]) tradingDay_fits.1 tradingDay_fits.2

end PoolOrderBook

end Titan
