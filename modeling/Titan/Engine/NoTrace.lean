import Titan.Engine.Views
import Titan.Engine.PoolSpec

/-! A resting order that does not trade leaves no trace once it is cancelled.

    Taking the order out of a book commutes with every call that does not name it and does not trade
    with it: a fill that passes its place does so with nothing left, or stops in front of it at a
    price that stops it as well when the order is gone. -/

namespace Titan
open Schemes

variable {o x : Order} {id : OrderId} {s : Side}

/-! ### Fill and place without an order -/

/-- Behind an order beyond the limit all orders are beyond it. -/
theorem not_reaches_of_sorted {m : Order} {ms : List Order} (hm : ¬ o.Reaches m.price)
    (h : (m :: ms).Pairwise fun x y => ¬ better o.side.opp y.price x.price) :
    ∀ y ∈ m :: ms, ¬ o.Reaches y.price := by
  intro y hy
  rcases List.mem_cons.mp hy with rfl | hy
  · exact hm
  · rw [Order.not_reaches] at hm ⊢
    exact ⟨hm.1, better_of_not_better hm.2 (List.rel_of_pairwise_cons h hy)⟩

/-- A fill that does not trade with an order does the same without it. -/
theorem fill_without : ∀ (q : Quantity) {L : List Order},
    L.Pairwise (fun x y => ¬ better o.side.opp y.price x.price) →
    (∀ t ∈ (fill o q L).trades, t.makerOrderId ≠ id) →
    fill o q (L.filter fun m => m.orderId ≠ id) =
      ⟨(fill o q L).trades, (fill o q L).left, (fill o q L).rest.filter fun m => m.orderId ≠ id⟩
  | q, [], _, _ => rfl
  | q, m :: ms, hsort, hmaker => by
    by_cases h1 : q = 0 ∨ ¬ o.Reaches m.price
    · rw [fill_stop o h1]
      refine fill_stopped o (h1.imp_right fun hm y hy => ?_)
      exact not_reaches_of_sorted hm hsort y (List.mem_of_mem_filter hy)
    by_cases h2 : m.remainingQuantity ≤ q
    · rw [fill_full o h1 h2] at hmaker ⊢
      obtain ⟨hm, hms⟩ := List.forall_mem_cons.mp hmaker
      have ih := fill_without (q - m.remainingQuantity) (List.pairwise_cons.mp hsort).2 hms
      rw [List.filter_cons_of_pos (by simpa using hm), fill_full o h1 h2, ih]
    · rw [fill_part o h1 h2] at hmaker ⊢
      have hm : m.orderId ≠ id := hmaker _ (List.mem_singleton_self _)
      rw [List.filter_cons_of_pos (by simpa using hm), fill_part o h1 h2,
        List.filter_cons_of_pos (by simpa using hm)]

/-- Placing another order is the same without it. -/
theorem place_without (ho : o.orderId ≠ id) {L : List Order}
    (h : L.Pairwise fun x y => ¬ better s y.price x.price) :
    place s o (L.filter fun m => m.orderId ≠ id) =
      (place s o L).filter fun m => m.orderId ≠ id := by
  obtain ⟨ys, zs, rfl, hplace, hys, hzs⟩ := place_split (o := o) h
  rw [hplace, List.filter_append, List.filter_append, List.filter_cons_of_pos (by simpa using ho),
    place_append, place_of_better]
  · intro z hz
    exact hzs z (List.mem_of_mem_filter hz)
  · intro y hy
    exact hys y (List.mem_of_mem_filter hy)

/-- Placing the order and taking it out again. -/
theorem place_without_self : ∀ {L : List Order}, (∀ m ∈ L, m.orderId ≠ x.orderId) →
    (place s x L).filter (fun m => m.orderId ≠ x.orderId) = L
  | [], _ => by simp [place]
  | m :: ms, h => by
    have hkeep : (m :: ms).filter (fun m => m.orderId ≠ x.orderId) = m :: ms := by
      rw [List.filter_eq_self]
      simpa using h
    obtain ⟨hm, hms⟩ := List.forall_mem_cons.mp h
    rw [place]
    split_ifs
    · rw [List.filter_cons_of_neg (by simp), hkeep]
    · rw [List.filter_cons_of_pos (by simpa using hm), place_without_self hms]

namespace Call

/-- The call neither names the order under `id` nor clears the book. -/
def Spares (id : OrderId) : Call → Prop
  | .submit o _ => o.orderId ≠ id
  | .cancel id' => id' ≠ id
  | .clear => False

instance (id : OrderId) : ∀ c : Call, Decidable (c.Spares id)
  | .submit _ _ | .cancel _ => inferInstanceAs (Decidable (_ ≠ _))
  | .clear => inferInstanceAs (Decidable False)

/-- The caller's vector of trades. -/
def outTrades : Call → List Trade
  | .submit _ out => out
  | .cancel _ | .clear => []

end Call

/-- The trades that a call has put behind those in the caller's vector. -/
def emitted (c : Call) (r : Reply) : List Trade := r.outTrades.drop c.outTrades.length

namespace Book
variable {k : Book}

/-- The book without the order under `id`. -/
def without (k : Book) (id : OrderId) : Book := fun s => (k s).filter fun o => o.orderId ≠ id

theorem orders_without (k : Book) (id : OrderId) :
    (k.without id).orders = k.orders.filter fun o => o.orderId ≠ id := k.orders_cancel id

theorem without_setSide (k : Book) (id : OrderId) (s : Side) (xs : List Order) :
    (k.setSide s xs).without id =
      (k.without id).setSide s (xs.filter fun o => o.orderId ≠ id) := by
  refine ext_sides s ?_ ?_
  · rw [without, setSide_self, setSide_self]
  · rw [without, setSide_opp, setSide_opp]
    rfl

theorem find?_without_none {id' : OrderId} (h : id' ≠ id) :
    (k.without id).find? id' = none ↔ k.find? id' = none := by
  rw [find?_eq_none_iff, find?_eq_none_iff, orders_without]
  constructor
  · intro hfree y hy hid
    exact hfree y (List.mem_filter.mpr ⟨hy, by simpa [hid] using h⟩) hid
  · intro hfree y hy
    exact hfree y (List.mem_of_mem_filter hy)

theorem without_accepts (h : o.orderId ≠ id) : (k.without id).Accepts o ↔ k.Accepts o := by
  rw [Accepts, Accepts, find?_without_none h]

/-- The trades of an accepted submission are the emitted ones. -/
theorem emitted_submit (ha : k.Accepts o) (out : List Trade) :
    emitted (.submit o out) (k.call (.submit o out)).1 = (k.fillOf o).trades := by
  rw [emitted, call, submit, if_pos ha]
  exact List.drop_left

theorem fillOf_without (hk : k.Sane) (hmaker : ∀ t ∈ (k.fillOf o).trades, t.makerOrderId ≠ id) :
    (k.without id).fillOf o = ⟨(k.fillOf o).trades, (k.fillOf o).left,
      (k.fillOf o).rest.filter fun m => m.orderId ≠ id⟩ :=
  fill_without o.effective (hk.sorted o.side.opp) hmaker

theorem without_rest (ho : o.orderId ≠ id)
    (hk : (k o.side).Pairwise fun x y => ¬ better o.side y.price x.price) :
    (k.without id).rest o = (k.rest o).without id := by
  rw [rest, rest, without_setSide, ← place_without ho hk]
  rfl

theorem accept_without (hk : k.Sane) (ho : o.orderId ≠ id)
    (hmaker : ∀ t ∈ (k.fillOf o).trades, t.makerOrderId ≠ id) :
    (k.without id).accept o = (k.accept o).without id := by
  rw [accept, accept, fillOf_without hk hmaker]
  dsimp only
  rw [← without_setSide]
  split_ifs
  · exact without_rest (o := { o with remainingQuantity := (k.fillOf o).left }) ho
      ((hk.matched o).sorted o.side)
  · rfl

/-- A call that spares the order, and does not trade with it, is the same without it. -/
theorem call_without (hk : k.Sane) : ∀ {c : Call}, c.Spares id →
    (∀ t ∈ emitted c (k.call c).1, t.makerOrderId ≠ id) →
    (k.without id).call c = ((k.call c).1, (k.call c).2.without id)
  | .submit o out, ho, hmaker => by
    by_cases ha : k.Accepts o
    · rw [emitted_submit ha] at hmaker
      rw [call, call, submit, submit, if_pos ((without_accepts ho).mpr ha), if_pos ha,
        accept_without hk ho hmaker, fillOf_without hk hmaker]
    · rw [call, call, submit, submit, if_neg (mt (without_accepts ho).mp ha), if_neg ha]
  | .cancel id', hid, _ => by
    have hfind : ((k.without id).find? id').isSome = (k.find? id').isSome := by
      rw [Bool.eq_iff_iff, Option.isSome_iff_ne_none, Option.isSome_iff_ne_none, Ne,
        find?_without_none hid]
    rw [call, call, cancel, cancel, hfind]
    refine Prod.ext rfl (funext fun s => ?_)
    exact List.filter_comm ..
  | .clear, h, _ => h.elim

/-- Without the order that has just come to rest the book is what it was. -/
theorem accept_without_self (ha : k.Accepts x) (hno : (k.fillOf x).trades = []) :
    (k.accept x).without x.orderId = k := by
  have hfree : ∀ s, ∀ m ∈ k s, m.orderId ≠ x.orderId := fun s m hm =>
    find?_eq_none_iff.mp ha.2.2 m ((k.mem_orders s).mpr (.inl hm))
  have hkeep : ∀ s, (k s).filter (fun m => m.orderId ≠ x.orderId) = k s := by
    intro s
    rw [List.filter_eq_self]
    simpa using hfree s
  have hfill : k.fillOf x = ⟨[], x.effective, k x.side.opp⟩ := fill_of_no_trades x hno
  refine ext_sides x.side ?_ ?_
  · rw [without, accept_own]
    split_ifs
    · exact place_without_self (x := { x with remainingQuantity := (k.fillOf x).left }) (hfree _)
    · exact hkeep _
  · rw [without, accept_opp, hfill]
    exact hkeep _

end Book

/-! ### Runs with and without the order -/

namespace PoolOrderBook
variable {b b' : PoolOrderBook}

/-- The pool of `c` slots has come from `c'` slots by growth. -/
def GrownFrom (c c' : ℕ) : Prop := ∃ n, c = Shape.grownSize^[n] c'

theorem GrownFrom.le {c c' : ℕ} (h : GrownFrom c c') : c' ≤ c := by
  obtain ⟨n, rfl⟩ := h
  induction n with
  | zero => exact le_rfl
  | succ n ih =>
    rw [Function.iterate_succ_apply']
    refine ih.trans ?_
    rw [Shape.grownSize]
    split_ifs <;> omega

/-- Of two pools that may grow, the one with fewer orders does not outgrow the other. -/
theorem GrownFrom.step {c c' len len' : ℕ} {p : Prop} [Decidable p] (h : GrownFrom c c')
    (hlen : len' ≤ len) (hroom : len ≤ c) :
    GrownFrom (if p ∧ len = c then Shape.grownSize c else c)
      (if p ∧ len' = c' then Shape.grownSize c' else c') := by
  obtain ⟨n, rfl⟩ := h
  by_cases hp : p
  swap
  · simp only [hp, false_and, if_false]
    exact ⟨n, rfl⟩
  simp only [hp, true_and]
  split_ifs with h1 h2 h2
  · exact ⟨n, (Function.iterate_succ_apply' ..).symm.trans (Function.iterate_succ_apply ..)⟩
  · exact ⟨n + 1, by rw [Function.iterate_succ_apply']⟩
  · cases n with
    | zero =>
      rw [Function.iterate_zero, id] at h1 hroom
      omega
    | succ n => exact ⟨n, by rw [Function.iterate_succ_apply]⟩
  · exact ⟨n, rfl⟩

theorem Inv.length_matched_le (h : b.Inv) (o : Order) :
    (b.book.setSide o.side.opp (b.book.fillOf o).rest).orders.length ≤ b.poolCapacity := by
  obtain ⟨hb, -, -, hbook⟩ := matched_spec h o []
  have hcap : (b.matched o []).book.poolCapacity = b.poolCapacity := hb.run.capacity
  have hlength := hb.inv.freeSlots_length
  rw [hb.inv.totalOrders_eq, hbook, hcap] at hlength
  omega

/-- Both pools are in order, and the second has at most the slots of the first. -/
structure Beside (b b' : PoolOrderBook) : Prop where
  good : b.Good
  good' : b'.Good
  capacity : GrownFrom b.poolCapacity b'.poolCapacity

theorem Beside.call {c : Call} (h : Beside b b')
    (hcap : GrownFrom (b.book.capacityAfter b.poolCapacity c)
      (b'.book.capacityAfter b'.poolCapacity c)) (hfit : (b.call c).2.Fits) :
    Beside (b.call c).2 (b'.call c).2 ∧ (b'.call c).2.Fits := by
  rw [← h.good.1.capacity_call, ← h.good'.1.capacity_call] at hcap
  have hfit' : (b'.call c).2.Fits := hcap.le.trans_lt hfit
  exact ⟨⟨good_call b c h.good hfit, good_call b' c h.good' hfit', hcap⟩, hfit'⟩

/-- The book of the second pool lacks the order under `id`. -/
structure Lacks (id : OrderId) (b b' : PoolOrderBook) : Prop where
  beside : Beside b b'
  book : b'.book = b.book.without id

theorem Lacks.call {c : Call} (h : Lacks id b b') (hc : c.Spares id)
    (hmaker : ∀ t ∈ emitted c (b.call c).1, t.makerOrderId ≠ id) (hfit : (b.call c).2.Fits) :
    (b.call c).1 = (b'.call c).1 ∧ Lacks id (b.call c).2 (b'.call c).2 := by
  obtain ⟨hgood, hgood', hgrown⟩ := h.beside
  obtain ⟨-, hreply, hbook⟩ := call_spec hgood.1 c hfit
  rw [hreply] at hmaker
  have hcall := Book.call_without hgood.2 hc hmaker
  have hcap : GrownFrom (b.book.capacityAfter b.poolCapacity c)
      (b'.book.capacityAfter b'.poolCapacity c) := by
    cases c with
    | submit o out =>
      by_cases ha : b.book.Accepts o
      · rw [Book.emitted_submit ha] at hmaker
        have hle := List.length_filter_le (fun m => decide (m.orderId ≠ id))
          (b.book.setSide o.side.opp (b.book.fillOf o).rest).orders
        rw [← Book.orders_without, Book.without_setSide] at hle
        rw [h.book, Book.capacityAfter, Book.capacityAfter, Book.fillOf_without hgood.2 hmaker]
        simp only [Book.without_accepts hc, ← and_assoc]
        exact hgrown.step hle (hgood.1.length_matched_le o)
      · rw [h.book, Book.capacityAfter, Book.capacityAfter, if_neg fun hx => ha hx.1,
          if_neg fun hx => ha ((Book.without_accepts hc).mp hx.1)]
        exact hgrown
    | cancel _ | clear => exact hgrown
  obtain ⟨hbeside, hfit'⟩ := h.beside.call hcap hfit
  obtain ⟨-, hreply', hbook'⟩ := call_spec hgood'.1 c hfit'
  rw [h.book, hcall] at hreply' hbook'
  exact ⟨by rw [hreply, hreply'], hbeside, by rw [hbook', hbook]⟩

/-- Both pools stand for one book. -/
structure Abreast (b b' : PoolOrderBook) : Prop where
  beside : Beside b b'
  book : b.book = b'.book

theorem Abreast.call {c : Call} (h : Abreast b b') (hfit : (b.call c).2.Fits) :
    (b.call c).1 = (b'.call c).1 ∧ Abreast (b.call c).2 (b'.call c).2 := by
  obtain ⟨hgood, hgood', hgrown⟩ := h.beside
  have hcap : GrownFrom (b.book.capacityAfter b.poolCapacity c)
      (b'.book.capacityAfter b'.poolCapacity c) := by
    rw [← h.book]
    cases c with
    | submit o out =>
      simp only [Book.capacityAfter, ← and_assoc]
      exact hgrown.step le_rfl (hgood.1.length_matched_le o)
    | cancel _ | clear => exact hgrown
  obtain ⟨hbeside, hfit'⟩ := h.beside.call hcap hfit
  obtain ⟨-, hreply, hbook⟩ := call_spec hgood.1 c hfit
  obtain ⟨-, hreply', hbook'⟩ := call_spec hgood'.1 c hfit'
  exact ⟨by rw [hreply, hreply', h.book], hbeside, by rw [hbook, hbook', h.book]⟩

theorem Abreast.alike (h : Abreast b b') : Alike b b' :=
  h.beside.good.1.alike h.beside.good'.1 h.book

/-- An order that has come to rest without a trade. -/
theorem lacks_submit (h : b.Good) (out : List Trade)
    (hquiet : (b.call (.submit x out)).1 = ⟨true, out⟩)
    (hfit : (b.call (.submit x out)).2.Fits) :
    Lacks x.orderId (b.call (.submit x out)).2 b := by
  obtain ⟨-, hreply, hbook⟩ := call_spec h.1 _ hfit
  rw [hreply, Book.call, Book.submit] at hquiet
  rw [Book.call, Book.submit] at hbook
  by_cases ha : b.book.Accepts x
  · rw [if_pos ha] at hquiet hbook
    have hno : (b.book.fillOf x).trades = [] := by simpa using hquiet
    have hgrown : GrownFrom (b.call (.submit x out)).2.poolCapacity b.poolCapacity := by
      rw [h.1.capacity_call, Book.capacityAfter]
      split_ifs
      · exact ⟨1, rfl⟩
      · exact ⟨0, rfl⟩
    exact ⟨⟨good_call b _ h hfit, h, hgrown⟩, by rw [hbook, Book.accept_without_self ha hno]⟩
  · rw [if_neg ha] at hquiet
    simp at hquiet

/-- The cancel takes out what the second pool lacks. -/
theorem Lacks.cancel (h : Lacks id b b') (hfit : (b.call (.cancel id)).2.Fits) :
    Abreast (b.call (.cancel id)).2 b' := by
  obtain ⟨hgood, hgood', hgrown⟩ := h.beside
  obtain ⟨-, -, hbook⟩ := call_spec hgood.1 _ hfit
  refine ⟨⟨good_call b _ hgood hfit, hgood', ?_⟩, hbook.trans h.book.symm⟩
  rw [hgood.1.capacity_call]
  exact hgrown

/-- A limit order that is accepted without a trade, is the maker of no trade and is cancelled leaves
    no trace: without it the other calls have the same replies, and from the cancel on all queries
    the same answers. -/
theorem cancelled_leaves_no_trace (initialCapacity : ℕ) (pre mid post : List Call) (x : Order)
    (out : List Trade) (hn : (ctor initialCapacity).Fits)
    (hfit : ∀ e ∈ history call (ctor initialCapacity)
      (pre ++ .submit x out :: mid ++ .cancel x.orderId :: post), e.after.Fits)
    (hquiet : ((final call (ctor initialCapacity) pre).call (.submit x out)).1 = ⟨true, out⟩)
    (hspares : ∀ c ∈ mid, c.Spares x.orderId)
    (hmaker : ∀ e ∈ history call
      ((final call (ctor initialCapacity) pre).call (.submit x out)).2 mid,
      ∀ t ∈ emitted e.call e.reply, t.makerOrderId ≠ x.orderId) :
    let before := final call (ctor initialCapacity) pre
    let resting := (before.call (.submit x out)).2
    let cancelled := ((final call resting mid).call (.cancel x.orderId)).2
    let without := final call before mid
    List.Forall₂ (fun e f => e.call = f.call ∧ e.reply = f.reply) (history call resting mid)
      (history call before mid) ∧
    Alike cancelled without ∧
    List.Forall₂ (fun e f => e.call = f.call ∧ e.reply = f.reply ∧ Alike e.after f.after)
      (history call cancelled post) (history call without post) := by
  intro before resting cancelled without
  rw [history_append, history_append, final_append] at hfit
  have hpre : ∀ e ∈ history call (ctor initialCapacity) pre, e.after.Fits := fun e he =>
    hfit e (List.mem_append_left _ (List.mem_append_left _ he))
  have hmid : ∀ e ∈ history call before (.submit x out :: mid), e.after.Fits := fun e he =>
    hfit e (List.mem_append_left _ (List.mem_append_right _ he))
  have hpost : ∀ e ∈ history call (final call resting mid) (.cancel x.orderId :: post),
      e.after.Fits := fun e he => hfit e (List.mem_append_right _ he)
  obtain ⟨hx, hmid⟩ := List.forall_mem_cons.mp hmid
  obtain ⟨hcancel, hpost⟩ := List.forall_mem_cons.mp hpost
  have hgood : before.Good := final_invariant good_call pre (good_ctor hn) hpre
  have hmidStep : ∀ s t c c', Lacks x.orderId s t → (c = c' ∧ c.Spares x.orderId) →
      ((call s c).2.Fits ∧ ∀ t ∈ emitted c (call s c).1, t.makerOrderId ≠ x.orderId) → True →
      (call s c).1 = (call t c').1 ∧ Lacks x.orderId (call s c).2 (call t c').2 := by
    rintro s t c _ hl ⟨rfl, hc⟩ ⟨hs, hm⟩ -
    exact hl.call hc hm hs
  obtain ⟨hreplies, hlacks⟩ := history_related (Q := Eq)
    (P := fun e => e.after.Fits ∧ ∀ t ∈ emitted e.call e.reply, t.makerOrderId ≠ x.orderId)
    (W := fun _ => True) hmidStep (List.forall₂_same.mpr fun c hc => ⟨rfl, hspares c hc⟩)
    (lacks_submit hgood out hquiet hx) (fun e he => ⟨hmid e he, hmaker e he⟩) fun _ _ => trivial
  have habreast : Abreast cancelled without := hlacks.cancel hcancel
  refine ⟨?_, habreast.alike, ?_⟩
  · refine hreplies.imp ?_
    rintro e f ⟨⟨hc, -⟩, hr, -⟩
    exact ⟨hc, hr⟩
  · have hstep : ∀ s t c, Abreast s t → (call s c).2.Fits →
        (call s c).1 = (call t c).1 ∧ Abreast (call s c).2 (call t c).2 :=
      fun s t c ha hs => ha.call hs
    refine (history_simulation hstep post habreast hpost).imp ?_
    rintro e f ⟨hc, hr, -, ha⟩
    exact ⟨hc, hr, ha.alike⟩

/-- A bid that stays behind while others trade in front of it. -/
def bystander : Order := { orderId := 2, price := 99, initialQuantity := 3 }

def aroundBystander : List Call :=
  [.submit { orderId := 1, price := 101, initialQuantity := 5, side := .sell } [],
   .submit { orderId := 6, price := 100, initialQuantity := 2, side := .sell } []]

theorem cancelled_leaves_no_trace_bystander :
    let before := final call (ctor 1) [.submit { orderId := 5, price := 100, initialQuantity := 6 } []]
    let resting := (before.call (.submit bystander [])).2
    Alike ((final call resting aroundBystander).call (.cancel 2)).2
      (final call before aroundBystander) :=
  (cancelled_leaves_no_trace 1 [.submit { orderId := 5, price := 100, initialQuantity := 6 } []]
    aroundBystander [.submit { orderId := 2, price := 90, initialQuantity := 1 } []] bystander []
    (by decide) (by decide) (by decide) (by decide) (by decide)).2.1

end PoolOrderBook

end Titan
