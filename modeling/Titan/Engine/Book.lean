import Titan.Types
import Mathlib.Data.List.Dedup

/-! What an order book is for.

    A side is one list of resting orders, best price first and, at equal prices, earliest first.
    A submission is filled greedily along the other side and what is left of a limit order is placed
    behind its own price. Both engines are compared with this book; the facts that make it a book at
    all (`Sane`) are proved here, once. -/

namespace Titan
open Function (update)

namespace Order

/-- The quantity a submission asks for. -/
def effective (o : Order) : Quantity :=
  if o.remainingQuantity = 0 then o.initialQuantity else o.remainingQuantity

/-- The limit lets the incoming order trade at price `p` of the other side. -/
def Reaches (o : Order) (p : Price) : Prop := ¬ (o.type = .limit ∧ better o.side.opp o.price p)

instance (o : Order) (p : Price) : Decidable (o.Reaches p) := inferInstanceAs (Decidable (¬ _))

theorem ite_effective (o : Order) : (if o.remainingQuantity = 0
    then { o with remainingQuantity := o.initialQuantity } else o) =
      { o with remainingQuantity := o.effective } := by
  rw [effective]
  split_ifs <;> rfl

theorem not_reaches {o : Order} {p : Price} :
    ¬ o.Reaches p ↔ o.type = .limit ∧ better o.side.opp o.price p := Decidable.not_not

/-- The trade of the incoming order `o` with the resting order `m`. -/
def trade (o m : Order) (q : Quantity) : Trade where
  makerOrderId := m.orderId
  takerOrderId := o.orderId
  price := m.price
  quantity := q
  timestamp := o.timestamp
  aggressorSide := o.side

@[simp] theorem trade_price (o m : Order) (q : Quantity) : (o.trade m q).price = m.price := rfl

@[simp] theorem trade_quantity (o m : Order) (q : Quantity) : (o.trade m q).quantity = q := rfl

@[simp] theorem trade_makerOrderId (o m : Order) (q : Quantity) :
    (o.trade m q).makerOrderId = m.orderId := rfl

@[simp] theorem trade_takerOrderId (o m : Order) (q : Quantity) :
    (o.trade m q).takerOrderId = o.orderId := rfl

/-- An order without its remaining quantity, the one field that matching changes. -/
def core (o : Order) : Order := { o with remainingQuantity := 0 }

@[simp] theorem core_price (o : Order) : o.core.price = o.price := rfl

@[simp] theorem core_orderId (o : Order) : o.core.orderId = o.orderId := rfl

theorem price_of_core {x y : Order} (h : x.core = y.core) : x.price = y.price := by
  rw [← core_price x, h, core_price]

theorem id_of_core {x y : Order} (h : x.core = y.core) : x.orderId = y.orderId := by
  rw [← core_orderId x, h, core_orderId]

end Order

/-! ### Greedy fill -/

structure Fill where
  trades : List Trade
  left : Quantity
  rest : List Order

/-- Fill quantity `q` of the incoming order `o` along a list of makers. -/
def fill (o : Order) : Quantity → List Order → Fill
  | q, [] => ⟨[], q, []⟩
  | q, m :: ms =>
    if q = 0 ∨ ¬ o.Reaches m.price then ⟨[], q, m :: ms⟩
    else if m.remainingQuantity ≤ q then
      let f := fill o (q - m.remainingQuantity) ms
      ⟨o.trade m m.remainingQuantity :: f.trades, f.left, f.rest⟩
    else ⟨[o.trade m q], 0, { m with remainingQuantity := m.remainingQuantity - q } :: ms⟩

/-- Exact sum of the remaining quantities of a list of orders. -/
def total (xs : List Order) : ℕ := (xs.map (·.remainingQuantity.toNat)).sum

/-- Exact sum of the quantities of a list of trades. -/
def traded (ts : List Trade) : ℕ := (ts.map (·.quantity.toNat)).sum

@[simp] theorem total_nil : total [] = 0 := rfl

@[simp] theorem total_cons (o : Order) (xs : List Order) :
    total (o :: xs) = o.remainingQuantity.toNat + total xs := by simp [total]

@[simp] theorem total_append (xs ys : List Order) : total (xs ++ ys) = total xs + total ys := by
  simp [total]

@[simp] theorem traded_nil : traded [] = 0 := rfl

@[simp] theorem traded_cons (t : Trade) (ts : List Trade) :
    traded (t :: ts) = t.quantity.toNat + traded ts := by simp [traded]

/-- Sum of the remaining quantities of a list of orders, modulo `2 ^ 32`. -/
def volume (xs : List Order) : Quantity := UInt32.ofNat (total xs)

@[simp] theorem volume_nil : volume [] = 0 := rfl

@[simp] theorem volume_append (xs ys : List Order) : volume (xs ++ ys) = volume xs + volume ys := by
  rw [volume, total_append, UInt32.ofNat_add, volume, volume]

@[simp] theorem volume_cons (o : Order) (xs : List Order) :
    volume (o :: xs) = o.remainingQuantity + volume xs := by
  rw [volume, total_cons, UInt32.ofNat_add, UInt32.ofNat_toNat, volume]

theorem volume_eq_iff {xs ys : List Order} :
    volume xs = volume ys ↔ total xs % 2 ^ 32 = total ys % 2 ^ 32 := by
  rw [volume, volume, ← UInt32.toNat_inj, UInt32.toNat_ofNat', UInt32.toNat_ofNat']

section Fill
variable (o : Order)

theorem fill_stop {q : Quantity} {m : Order} {ms : List Order} (h : q = 0 ∨ ¬ o.Reaches m.price) :
    fill o q (m :: ms) = ⟨[], q, m :: ms⟩ := by rw [fill, if_pos h]

/-- The first maker is filled. -/
theorem fill_full {q : Quantity} {m : Order} {ms : List Order}
    (h : ¬ (q = 0 ∨ ¬ o.Reaches m.price)) (hle : m.remainingQuantity ≤ q) : fill o q (m :: ms) =
      ⟨o.trade m m.remainingQuantity :: (fill o (q - m.remainingQuantity) ms).trades,
        (fill o (q - m.remainingQuantity) ms).left, (fill o (q - m.remainingQuantity) ms).rest⟩ := by
  rw [fill, if_neg h, if_pos hle]

/-- The first maker takes all that is left. -/
theorem fill_part {q : Quantity} {m : Order} {ms : List Order}
    (h : ¬ (q = 0 ∨ ¬ o.Reaches m.price)) (hle : ¬ m.remainingQuantity ≤ q) : fill o q (m :: ms) =
      ⟨[o.trade m q], 0, { m with remainingQuantity := m.remainingQuantity - q } :: ms⟩ := by
  rw [fill, if_neg h, if_neg hle]

theorem fill_zero : ∀ L : List Order, fill o 0 L = ⟨[], 0, L⟩
  | [] => rfl
  | _ :: _ => fill_stop o (.inl rfl)

/-- The fill does not look at the incoming order's quantity fields. -/
theorem fill_remaining (r : Quantity) : ∀ (q : Quantity) (L : List Order),
    fill { o with remainingQuantity := r } q L = fill o q L
  | q, [] => rfl
  | q, m :: ms => by
    rw [fill, fill, fill_remaining r (q - m.remainingQuantity) ms]
    rfl

/-- What is traded and what is left make up the quantity. -/
theorem traded_add_left : ∀ (q : Quantity) (L : List Order),
    traded (fill o q L).trades + (fill o q L).left.toNat = q.toNat
  | q, [] => by simp [fill]
  | q, m :: ms => by
    rw [fill]
    split_ifs with h1 h2
    · simp
    · have ih := traded_add_left (q - m.remainingQuantity) ms
      rw [UInt32.toNat_sub_of_le _ _ h2] at ih
      have := UInt32.le_iff_toNat_le.mp h2
      simp only [traded_cons, Order.trade]
      omega
    · simp [Order.trade]

/-- What is traded leaves the makers. -/
theorem traded_add_rest : ∀ (q : Quantity) (L : List Order),
    traded (fill o q L).trades + total (fill o q L).rest = total L
  | q, [] => by simp [fill]
  | q, m :: ms => by
    rw [fill]
    split_ifs with h1 h2
    · simp
    · have ih := traded_add_rest (q - m.remainingQuantity) ms
      simp only [traded_cons, total_cons, Order.trade]
      omega
    · have hle : q ≤ m.remainingQuantity := by grind
      have := UInt32.le_iff_toNat_le.mp hle
      simp only [traded_cons, traded_nil, total_cons, Order.trade, UInt32.toNat_sub_of_le _ _ hle]
      omega

/-- Up to remaining quantities, the makers left over are an untouched suffix. -/
theorem rest_suffix : ∀ (q : Quantity) (L : List Order),
    (fill o q L).rest.map Order.core <:+ L.map Order.core
  | q, [] => List.suffix_refl _
  | q, m :: ms => by
    rw [fill]
    split_ifs with h1 h2
    · exact List.suffix_refl _
    · exact (rest_suffix (q - m.remainingQuantity) ms).trans (List.suffix_cons ..)
    · exact List.suffix_refl _

theorem rest_pos : ∀ (q : Quantity) (L : List Order), (∀ x ∈ L, x.remainingQuantity ≠ 0) →
    ∀ x ∈ (fill o q L).rest, x.remainingQuantity ≠ 0
  | q, [], _ => by simp [fill]
  | q, m :: ms, hL => by
    rw [fill]
    split_ifs with h1 h2
    · exact hL
    · exact rest_pos _ ms fun x hx => hL x (List.mem_cons_of_mem _ hx)
    · refine List.forall_mem_cons.mpr ⟨?_, fun x hx => hL x (List.mem_cons_of_mem _ hx)⟩
      show m.remainingQuantity - q ≠ 0
      grind

/-- The fill ends with the quantity used up, or in front of an order beyond the limit. -/
theorem fill_exit : ∀ (q : Quantity) (L : List Order), (fill o q L).left = 0 ∨
    ∀ x ∈ (fill o q L).rest.head?, ¬ o.Reaches x.price
  | q, [] => .inr (by simp [fill])
  | q, m :: ms => by
    rw [fill]
    split_ifs with h1 h2
    · exact h1.imp id fun h => by simpa using h
    · exact fill_exit _ ms
    · exact .inl rfl

/-- A fill that has no quantity, or no price within its limit. -/
theorem fill_stopped {q : Quantity} {L : List Order}
    (h : q = 0 ∨ ∀ m ∈ L, ¬ o.Reaches m.price) : fill o q L = ⟨[], q, L⟩ := by
  cases L with
  | nil => rfl
  | cons m ms => exact fill_stop o (h.imp_right fun h => h m (List.mem_cons_self ..))

theorem fill_of_no_trades {q : Quantity} {L : List Order} (h : (fill o q L).trades = []) :
    fill o q L = ⟨[], q, L⟩ := by
  cases L with
  | nil => rfl
  | cons m ms =>
    by_cases h1 : q = 0 ∨ ¬ o.Reaches m.price
    · exact fill_stop o h1
    · by_cases h2 : m.remainingQuantity ≤ q
      · rw [fill_full o h1 h2] at h
        cases h
      · rw [fill_part o h1 h2] at h
        cases h

end Fill

/-! ### The book -/

/-- The resting orders of each side in priority order. -/
abbrev Book := Side → List Order

/-- Put an order behind all orders of its side that are no worse priced. -/
def place (s : Side) (o : Order) : List Order → List Order
  | [] => [o]
  | m :: ms => if better s o.price m.price then o :: m :: ms else m :: place s o ms

namespace Book

def orders (k : Book) : List Order := k .buy ++ k .sell

def find? (k : Book) (id : OrderId) : Option Order := k.orders.find? fun o => o.orderId = id

def setSide (k : Book) (s : Side) (xs : List Order) : Book := update k s xs

@[simp] theorem setSide_self (k : Book) (s : Side) (xs : List Order) : k.setSide s xs s = xs :=
  Function.update_self ..

@[simp] theorem setSide_opp (k : Book) (s : Side) (xs : List Order) :
    k.setSide s xs s.opp = k s.opp := Function.update_of_ne s.opp_ne ..

@[simp] theorem setSide_of_opp (k : Book) (s : Side) (xs : List Order) :
    k.setSide s.opp xs s = k s := Function.update_of_ne s.ne_opp ..

def rest (k : Book) (o : Order) : Book := k.setSide o.side (place o.side o (k o.side))

/-- The checks of a submission. -/
def Accepts (k : Book) (o : Order) : Prop :=
  o.initialQuantity ≠ 0 ∧ ¬ (o.type = .limit ∧ o.price = 0) ∧ k.find? o.orderId = none

instance (k : Book) (o : Order) : Decidable (k.Accepts o) :=
  inferInstanceAs (Decidable (_ ∧ _ ∧ _))

theorem Accepts.effective_ne_zero {k : Book} {o : Order} (h : k.Accepts o) : o.effective ≠ 0 := by
  rw [Order.effective]
  split_ifs with hr
  · exact h.1
  · exact hr

/-- The fill of a submission. -/
def fillOf (k : Book) (o : Order) : Fill := fill o o.effective (k o.side.opp)

theorem traded_fillOf (k : Book) (o : Order) :
    traded (k.fillOf o).trades + (k.fillOf o).left.toNat = o.effective.toNat :=
  traded_add_left o o.effective (k o.side.opp)

/-- A market order trades if there is a maker. -/
theorem Accepts.trades_eq_nil_iff {k : Book} {o : Order} (h : k.Accepts o) (hm : o.type = .market) :
    (k.fillOf o).trades = [] ↔ k o.side.opp = [] := by
  rw [fillOf]
  constructor
  · intro hnil
    -- the quantity is not used up, so no maker is left; a market order reaches all of them
    have hexit := fill_exit o o.effective (k o.side.opp)
    rw [fill_of_no_trades o hnil] at hexit
    have hhead := hexit.resolve_left h.effective_ne_zero
    cases hL : k o.side.opp with
    | nil => rfl
    | cons m ms =>
      rw [hL] at hhead
      have hstop := hhead m rfl
      rw [Order.not_reaches, hm] at hstop
      cases hstop.1
  · intro hnil
    rw [hnil]
    rfl

/-- The book after an accepted submission. -/
def accept (k : Book) (o : Order) : Book :=
  let f := k.fillOf o
  let k := k.setSide o.side.opp f.rest
  if f.left ≠ 0 ∧ o.type = .limit then k.rest { o with remainingQuantity := f.left } else k

def submit (k : Book) (o : Order) : Bool × List Trade × Book :=
  if k.Accepts o then (true, (k.fillOf o).trades, k.accept o) else (false, [], k)

def cancel (k : Book) (id : OrderId) : Bool × Book :=
  ((k.find? id).isSome, fun s => (k s).filter fun o => o.orderId ≠ id)

def clear (_ : Book) : Book := fun _ => []

/-- The orders of one price, first in line first. -/
def queueAt (k : Book) (s : Side) (p : Price) : List Order := (k s).filter fun o => o.price = p

/-- The exact depth of a price. -/
def depth (k : Book) (s : Side) (p : Price) : ℕ := total (k.queueAt s p)

def bestPrice (k : Book) (s : Side) : Option Price := (k s).head?.map (·.price)

/-- The prices at which orders rest. -/
def prices (k : Book) (s : Side) : List Price := ((k s).map (·.price)).dedup

end Book

/-! ### Sanity -/

/-- What holds of every book that a run of calls builds. -/
structure Book.Sane (k : Book) : Prop where
  sorted : ∀ s, (k s).Pairwise fun x y => ¬ better s y.price x.price
  orders : ∀ s, ∀ o ∈ k s, o.side = s ∧ o.type = .limit ∧ o.price ≠ 0 ∧ o.initialQuantity ≠ 0 ∧
    o.remainingQuantity ≠ 0
  ids : (k.orders.map (·.orderId)).Nodup
  uncrossed : ∀ s, ∀ x ∈ k s, ∀ y ∈ k s.opp, better s y.price x.price

section Place
variable {s : Side} {o : Order}

theorem place_perm : ∀ xs : List Order, (place s o xs).Perm (o :: xs)
  | [] => .refl _
  | m :: ms => by
    rw [place]
    split_ifs with h
    · exact .refl _
    · exact ((place_perm ms).cons m).trans (.swap ..)

theorem mem_place {xs : List Order} {x : Order} : x ∈ place s o xs ↔ x = o ∨ x ∈ xs := by
  rw [(place_perm xs).mem_iff, List.mem_cons]

theorem place_sorted : ∀ {xs : List Order}, xs.Pairwise (fun x y => ¬ better s y.price x.price) →
    (place s o xs).Pairwise fun x y => ¬ better s y.price x.price
  | [], _ => List.pairwise_singleton ..
  | m :: ms, h => by
    obtain ⟨hm, hms⟩ := List.pairwise_cons.mp h
    rw [place]
    split_ifs with hb
    · refine List.pairwise_cons.mpr ⟨fun x hx => ?_, h⟩
      rcases List.mem_cons.mp hx with rfl | hx
      · exact better_asymm hb
      · exact better_asymm (better_of_not_better hb (hm x hx))
    · refine List.pairwise_cons.mpr ⟨fun x hx => ?_, place_sorted hms⟩
      rcases mem_place.mp hx with rfl | hx
      · exact hb
      · exact hm x hx

/-- Placing passes over everything that is no worse priced. -/
theorem place_append {xs : List Order} (h : ∀ x ∈ xs, ¬ better s o.price x.price)
    (ys : List Order) : place s o (xs ++ ys) = xs ++ place s o ys := by
  induction xs with
  | nil => rfl
  | cons x xs ih =>
    rw [List.cons_append, place, if_neg (h x (List.mem_cons_self ..)),
      ih fun y hy => h y (List.mem_cons_of_mem _ hy), List.cons_append]

/-- Placing stops in front of the first worse price. -/
theorem place_of_better {ys : List Order} (h : ∀ y ∈ ys, better s o.price y.price) :
    place s o ys = o :: ys := by
  cases ys with
  | nil => rfl
  | cons y ys => rw [place, if_pos (h y (List.mem_cons_self ..))]

/-- In a sorted list, placing is inserting between the orders that are no worse priced and the
    ones that are. -/
theorem place_split : ∀ {xs : List Order}, xs.Pairwise (fun x y => ¬ better s y.price x.price) →
    ∃ ys zs, xs = ys ++ zs ∧ place s o xs = ys ++ o :: zs ∧
      (∀ y ∈ ys, ¬ better s o.price y.price) ∧ ∀ z ∈ zs, better s o.price z.price
  | [], _ => ⟨[], [], rfl, rfl, by simp, by simp⟩
  | m :: ms, h => by
    obtain ⟨hm, hms⟩ := List.pairwise_cons.mp h
    rw [place]
    split_ifs with hb
    · refine ⟨[], m :: ms, rfl, rfl, by simp, List.forall_mem_cons.mpr ⟨hb, fun x hx => ?_⟩⟩
      exact better_of_not_better hb (hm x hx)
    · obtain ⟨ys, zs, h1, h2, h3, h4⟩ := place_split hms
      exact ⟨m :: ys, zs, by rw [h1]; rfl, by rw [h2]; rfl, List.forall_mem_cons.mpr ⟨hb, h3⟩, h4⟩

/-- A placed order is the last of its price, and other prices do not change. -/
theorem filter_place {xs : List Order} (h : xs.Pairwise fun x y => ¬ better s y.price x.price)
    (p : Price) : (place s o xs).filter (fun x => x.price = p) =
      xs.filter (fun x => x.price = p) ++ if o.price = p then [o] else [] := by
  obtain ⟨ys, zs, rfl, hp, -, hz⟩ := place_split (o := o) h
  rw [hp, List.filter_append, List.filter_append, List.filter_cons]
  by_cases ho : o.price = p
  · have hnil : zs.filter (fun x => x.price = p) = [] := by
      rw [List.filter_eq_nil_iff]
      intro z hzm
      rw [decide_eq_true_eq, ← ho]
      exact fun he => better_irrefl s _ (he ▸ hz z hzm)
    rw [hnil, if_pos (by simpa using ho), if_pos ho, List.append_nil]
  · rw [if_neg (by simpa using ho), if_neg ho, List.append_nil]

end Place

namespace Book
variable {k : Book}

theorem ext_sides {k k' : Book} (s : Side) (h : k s = k' s) (h' : k s.opp = k' s.opp) : k = k' := by
  funext t
  rcases s.eq_or_eq_opp t with rfl | rfl
  · exact h
  · exact h'

/-- Both sides together, from either side's point of view. -/
theorem orders_perm (k : Book) (s : Side) : k.orders.Perm (k s ++ k s.opp) := by
  cases s with
  | buy => exact .refl _
  | sell => exact List.perm_append_comm

theorem mem_orders {o : Order} (k : Book) (s : Side) : o ∈ k.orders ↔ o ∈ k s ∨ o ∈ k s.opp := by
  rw [(k.orders_perm s).mem_iff, List.mem_append]

theorem exists_mem_side {o : Order} (h : o ∈ k.orders) : ∃ s, o ∈ k s := by
  rcases (k.mem_orders .buy).mp h with h | h
  · exact ⟨_, h⟩
  · exact ⟨_, h⟩

theorem orders_cancel (k : Book) (id : OrderId) :
    (k.cancel id).2.orders = k.orders.filter fun o => o.orderId ≠ id := by
  rw [orders, orders, List.filter_append]
  rfl

theorem find?_eq_none_iff {id : OrderId} : k.find? id = none ↔ ∀ o ∈ k.orders, o.orderId ≠ id := by
  rw [find?, List.find?_eq_none]
  simp

/-- Ids are unique, so an order is found exactly where it rests. -/
theorem find?_eq_some_iff {id : OrderId} {o : Order} (hk : (k.orders.map (·.orderId)).Nodup) :
    k.find? id = some o ↔ o ∈ k.orders ∧ o.orderId = id := by
  constructor
  · intro h
    exact ⟨List.mem_of_find?_eq_some h, by simpa using List.find?_some h⟩
  · rintro ⟨ho, rfl⟩
    cases h : k.find? o.orderId with
    | none => exact absurd rfl (find?_eq_none_iff.mp h o ho)
    | some x =>
      have hx : x.orderId = o.orderId := by simpa using List.find?_some h
      rw [List.inj_on_of_nodup_map hk (List.mem_of_find?_eq_some h) ho hx]

/-- Matching makes no id known. -/
theorem find?_fill_none {o : Order} {id : OrderId} (h : k.find? id = none) :
    (k.setSide o.side.opp (k.fillOf o).rest).find? id = none := by
  rw [find?_eq_none_iff] at h ⊢
  intro y hy
  obtain ⟨z, hz, hzy⟩ : ∃ z ∈ k.orders, z.core = y.core := by
    rcases (mem_orders _ o.side).mp hy with hy | hy
    · rw [setSide_of_opp] at hy
      exact ⟨y, (k.mem_orders o.side).mpr (.inl hy), rfl⟩
    · rw [setSide_self] at hy
      obtain ⟨z, hz, hzy⟩ := List.mem_map.mp
        ((rest_suffix ..).subset (List.mem_map_of_mem (f := Order.core) hy))
      exact ⟨z, (k.mem_orders o.side).mpr (.inr hz), hzy⟩
  exact Order.id_of_core hzy ▸ h z hz

theorem cancel_of_none {id : OrderId} (h : k.find? id = none) : k.cancel id = (false, k) := by
  rw [cancel, h]
  refine congrArg (Prod.mk false) (funext fun s => List.filter_eq_self.mpr fun o ho => ?_)
  exact decide_eq_true (find?_eq_none_iff.mp h o ((k.mem_orders s).mpr (.inl ho)))

/-- Cancelling cuts out the order that is found, and nothing else. -/
theorem cancel_of_cut {k' : Book} {s : Side} (xs ys : List Order) {o : Order}
    (hids : (k.orders.map (·.orderId)).Nodup) (h : k s = xs ++ o :: ys) (h' : k' s = xs ++ ys)
    (ho : k' s.opp = k s.opp) : k.cancel o.orderId = (true, k') := by
  have hmem : o ∈ k.orders := (k.mem_orders s).mpr (.inl (by rw [h]; simp))
  have hnd := hids
  rw [((k.orders_perm s).map _).nodup_iff, h] at hnd
  have hp : (xs ++ o :: ys ++ k s.opp).Perm (o :: (xs ++ ys ++ k s.opp)) := by
    rw [← List.cons_append]
    exact List.perm_middle.append_right _
  rw [(hp.map _).nodup_iff, List.map_cons, List.nodup_cons] at hnd
  have hkeep : ∀ zs : List Order, (∀ x ∈ zs, x ∈ xs ++ ys ++ k s.opp) →
      zs.filter (fun x => x.orderId ≠ o.orderId) = zs := by
    intro zs hz
    rw [List.filter_eq_self]
    intro x hx
    refine decide_eq_true fun hid => hnd.1 ?_
    rw [← hid]
    exact List.mem_map_of_mem (hz x hx)
  rw [cancel, (find?_eq_some_iff hids).mpr ⟨hmem, rfl⟩]
  refine congrArg (Prod.mk true) (ext_sides s ?_ ?_)
  · rw [h', h, List.filter_append, List.filter_cons_of_neg (by simp), ← List.filter_append,
      hkeep _ fun x hx => List.mem_append_left _ hx]
  · rw [ho, hkeep _ fun x hx => List.mem_append_right _ hx]

namespace Sane

theorem ids_side (h : k.Sane) (s : Side) : ((k s ++ k s.opp).map (·.orderId)).Nodup :=
  ((k.orders_perm s).map _).nodup_iff.mp h.ids

theorem empty : Sane fun _ => [] where
  sorted _ := .nil
  orders _ _ ho := nomatch ho
  ids := .nil
  uncrossed _ _ ho := nomatch ho

/-- Removing orders and reducing quantities in place keep a book sane. -/
theorem shrink {k' : Book} (h : k.Sane)
    (hsub : ∀ s, ((k' s).map Order.core).Sublist ((k s).map Order.core))
    (hpos : ∀ s, ∀ o ∈ k' s, o.remainingQuantity ≠ 0) : k'.Sane := by
  have lift : ∀ s, ∀ o ∈ k' s, ∃ x ∈ k s, x.core = o.core := fun s o ho => by
    simpa using (hsub s).subset (List.mem_map_of_mem ho)
  refine ⟨fun s => ?_, fun s o ho => ?_, ?_, fun s x hx y hy => ?_⟩
  · have hs : ((k s).map Order.core).Pairwise fun x y => ¬ better s y.price x.price :=
      List.pairwise_map.mpr (h.sorted s)
    exact List.pairwise_map.mp (hs.sublist (hsub s))
  · obtain ⟨x, hx, hc⟩ := lift s o ho
    obtain ⟨h1, h2, h3, h4, _⟩ := h.orders s x hx
    simp only [Order.core, Order.mk.injEq] at hc
    exact ⟨hc.2.2.2.2.2.1 ▸ h1, hc.2.2.2.2.2.2 ▸ h2, hc.2.1 ▸ h3, hc.2.2.1 ▸ h4, hpos s o ho⟩
  · have hids : ((k.orders.map Order.core).map (·.orderId)).Nodup := by
      rw [List.map_map]; exact h.ids
    have hsub' : (k'.orders.map Order.core).Sublist (k.orders.map Order.core) := by
      rw [Book.orders, Book.orders, List.map_append, List.map_append]
      exact (hsub .buy).append (hsub .sell)
    have := hids.sublist (hsub'.map (·.orderId))
    rwa [List.map_map] at this
  · obtain ⟨x', hx', hcx⟩ := lift s x hx
    obtain ⟨y', hy', hcy⟩ := lift s.opp y hy
    rw [← Order.price_of_core hcx, ← Order.price_of_core hcy]
    exact h.uncrossed s x' hx' y' hy'

theorem cancel (h : k.Sane) (id : OrderId) : (k.cancel id).2.Sane :=
  h.shrink (fun _ => List.filter_sublist.map _) fun s o ho =>
    (h.orders s o (List.mem_of_mem_filter ho)).2.2.2.2

/-- Matching keeps a book sane. -/
theorem matched (h : k.Sane) (o : Order) : (k.setSide o.side.opp (k.fillOf o).rest).Sane := by
  refine h.shrink (fun s => ?_) fun s => ?_ <;> rcases o.side.eq_or_eq_opp s with rfl | rfl
  · rw [setSide_of_opp]
  · rw [setSide_self]; exact (rest_suffix ..).sublist
  · rw [setSide_of_opp]; exact fun x hx => (h.orders _ x hx).2.2.2.2
  · rw [setSide_self]; exact rest_pos _ _ _ fun x hx => (h.orders _ x hx).2.2.2.2

/-- A matched order with quantity left does not reach any order of the other side. -/
theorem not_reaches (h : k.Sane) {o : Order} (hl : (k.fillOf o).left ≠ 0) :
    ∀ y ∈ (k.fillOf o).rest, ¬ o.Reaches y.price := by
  have hexit := (fill_exit o o.effective (k o.side.opp)).resolve_left hl
  have hsort := (h.matched o).sorted o.side.opp
  rw [setSide_self] at hsort
  rw [Book.fillOf] at *
  cases hr : (fill o o.effective (k o.side.opp)).rest with
  | nil => simp
  | cons m ms =>
    rw [hr] at hexit hsort
    have hm : ¬ o.Reaches m.price := hexit m rfl
    refine List.forall_mem_cons.mpr ⟨hm, fun y hy hy' => ?_⟩
    have hno := (List.pairwise_cons.mp hsort).1 y hy
    rw [Order.not_reaches] at hm
    exact hy' ⟨hm.1, better_of_not_better hm.2 hno⟩

/-- Resting an order that does not cross, under a new id, keeps a book sane. -/
theorem rest (h : k.Sane) {o : Order} (ht : o.type = .limit) (hp : o.price ≠ 0)
    (hi : o.initialQuantity ≠ 0) (hr : o.remainingQuantity ≠ 0)
    (hid : ∀ x ∈ k.orders, x.orderId ≠ o.orderId) (hx : ∀ y ∈ k o.side.opp, ¬ o.Reaches y.price) :
    (k.rest o).Sane := by
  have hcross : ∀ y ∈ k o.side.opp, better o.side y.price o.price := fun y hy =>
    better_opp.mp (Order.not_reaches.mp (hx y hy)).2
  have hmem : ∀ x, x ∈ k.rest o o.side ↔ x = o ∨ x ∈ k o.side := fun x => by
    rw [Book.rest, setSide_self, mem_place]
  have hopp : k.rest o o.side.opp = k o.side.opp := setSide_opp ..
  refine ⟨fun s => ?_, fun s x hx' => ?_, ?_, fun s x hx' y hy' => ?_⟩
  · rcases o.side.eq_or_eq_opp s with rfl | rfl
    · rw [Book.rest, setSide_self]; exact place_sorted (h.sorted _)
    · rw [hopp]; exact h.sorted _
  · rcases o.side.eq_or_eq_opp s with rfl | rfl
    · rcases (hmem x).mp hx' with rfl | hx'
      · exact ⟨rfl, ht, hp, hi, hr⟩
      · exact h.orders _ x hx'
    · exact h.orders _ x (hopp ▸ hx')
  · have hperm : (k.rest o).orders.Perm (o :: k.orders) := by
      refine ((k.rest o).orders_perm o.side).trans ?_
      rw [hopp, Book.rest, setSide_self]
      exact ((place_perm _).append_right _).trans ((k.orders_perm o.side).symm.cons o)
    refine (hperm.map _).nodup_iff.mpr (List.nodup_cons.mpr ⟨?_, h.ids⟩)
    simpa using hid
  · rcases o.side.eq_or_eq_opp s with rfl | rfl
    · rw [hopp] at hy'
      rcases (hmem x).mp hx' with rfl | hx'
      · exact hcross y hy'
      · exact h.uncrossed _ x hx' y hy'
    · rw [hopp] at hx'
      rw [Side.opp_opp] at hy'
      rcases (hmem y).mp hy' with rfl | hy'
      · exact better_opp.mpr (hcross x hx')
      · exact h.uncrossed _ x hx' y (by rwa [Side.opp_opp])

theorem accept (h : k.Sane) {o : Order} (ha : k.Accepts o) : (k.accept o).Sane := by
  rw [Book.accept]
  split_ifs with hrest
  · refine (h.matched o).rest hrest.2 (fun hp => ha.2.1 ⟨hrest.2, hp⟩) ha.1 hrest.1
      (find?_eq_none_iff.mp (find?_fill_none ha.2.2)) ?_
    intro y hy
    rw [setSide_self] at hy
    exact h.not_reaches hrest.1 y hy
  · exact h.matched o

theorem submit (h : k.Sane) (o : Order) : (k.submit o).2.2.Sane := by
  rw [Book.submit]
  split_ifs with ha
  · exact h.accept ha
  · exact h

end Sane

end Book

end Titan
