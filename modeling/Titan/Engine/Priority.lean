import Titan.Engine.PoolSlots
import Titan.Engine.PoolSpec

/-! Price and time priority over whole runs.

    No engine stores when an order was accepted. A clock that is folded over the history of a run
    remembers it, and the queues turn out to be in its order. -/

namespace Titan
open Schemes

/-- What a run remembers about acceptance: the number of calls so far, and for each id the number of
    the call that accepted it last. -/
structure Clock where
  calls : ℕ := 0
  acceptedAt : OrderId → ℕ := fun _ => 0

namespace Clock

/-- The clock after a call that accepted nothing. -/
def tick (c : Clock) : Clock := { c with calls := c.calls + 1 }

/-- The clock after a call that accepted an order. -/
def stamp (c : Clock) (orderId : OrderId) : Clock :=
  { calls := c.calls + 1, acceptedAt := Function.update c.acceptedAt orderId c.calls }

def record (c : Clock) (e : Event PoolOrderBook Call Reply) : Clock :=
  match e.call with
  | .submit order _ => if e.reply.result = some true then c.stamp order.orderId else c.tick
  | .cancel _ | .clear => c.tick

/-- `x` has priority over `y` on side `s`: a better price, or the same price and an earlier
    acceptance. -/
def Before (c : Clock) (s : Side) (x y : Order) : Prop :=
  better s x.price y.price ∨ x.price = y.price ∧ c.acceptedAt x.orderId < c.acceptedAt y.orderId

variable {c c' : Clock} {s : Side} {x y z : Order}

theorem Before.irrefl : ¬ c.Before s x x := by
  rintro (h | ⟨-, h⟩)
  · exact better_irrefl s _ h
  · exact absurd h (Nat.lt_irrefl _)

theorem Before.asymm (h : c.Before s x y) : ¬ c.Before s y x := by
  rcases h with h | ⟨hp, h⟩
  · rintro (h' | ⟨hp', -⟩)
    · exact better_asymm h h'
    · exact better_irrefl s _ (hp' ▸ h)
  · rintro (h' | ⟨-, h'⟩)
    · exact better_irrefl s _ (hp ▸ h')
    · omega

theorem Before.better_left (h : better s x.price y.price) (h' : c.Before s y z) :
    better s x.price z.price := by
  rcases h' with h' | ⟨hp, -⟩
  · exact better_trans h h'
  · exact hp ▸ h

theorem Before.congr (h : c.Before s x y) (hx : c'.acceptedAt x.orderId = c.acceptedAt x.orderId)
    (hy : c'.acceptedAt y.orderId = c.acceptedAt y.orderId) : c'.Before s x y := by
  rw [Before, hx, hy]
  exact h

end Clock

/-! ### The line -/

/-- The orders of each side stand in line by priority, and were accepted in the past. -/
structure InLine (k : Book) (c : Clock) : Prop where
  line : ∀ s, (k s).Pairwise (c.Before s)
  past : ∀ s, ∀ x ∈ k s, c.acceptedAt x.orderId < c.calls

namespace InLine
variable {k k' : Book} {c c' : Clock} {o : Order}

theorem pairwise_core {s : Side} {xs ys : List Order} (h : xs.Pairwise (c.Before s))
    (hsub : (ys.map Order.core).Sublist (xs.map Order.core)) : ys.Pairwise (c.Before s) := by
  have hcore : (xs.map Order.core).Pairwise (c.Before s) := List.pairwise_map.mpr h
  have hsubset : (ys.map Order.core).Pairwise (c.Before s) := hcore.sublist hsub
  exact (List.pairwise_map (f := Order.core)).mp hsubset

/-- Orders that leave or shrink in place do not disturb the line. -/
theorem shrink (h : InLine k c) (hsub : ∀ s, ((k' s).map Order.core).Sublist ((k s).map Order.core)) :
    InLine k' c := by
  refine ⟨fun s => pairwise_core (h.line s) (hsub s), fun s x hx => ?_⟩
  obtain ⟨y, hy, hyx⟩ := List.mem_map.mp ((hsub s).subset (List.mem_map_of_mem hx))
  exact Order.id_of_core hyx ▸ h.past s y hy

theorem tick (h : InLine k c) : InLine k c.tick :=
  ⟨h.line, fun s x hx => (h.past s x hx).trans (Nat.lt_succ_self _)⟩

/-- The stamp of another order changes nothing. -/
theorem stamp (h : InLine k c) (hnew : ∀ s, ∀ x ∈ k s, x.orderId ≠ o.orderId) :
    InLine k (c.stamp o.orderId) := by
  have hkeep : ∀ s, ∀ x ∈ k s, (c.stamp o.orderId).acceptedAt x.orderId =
      c.acceptedAt x.orderId := fun s x hx => Function.update_of_ne (hnew s x hx) ..
  refine ⟨fun s => (h.line s).imp_of_mem fun hx hy hxy =>
    hxy.congr (hkeep s _ hx) (hkeep s _ hy), fun s x hx => ?_⟩
  rw [hkeep s x hx]
  exact (h.past s x hx).trans (Nat.lt_succ_self _)

/-- The latest order goes behind everything that is no worse priced. -/
theorem pairwise_place {s : Side} : ∀ {xs : List Order}, xs.Pairwise (c.Before s) →
    (∀ x ∈ xs, c.acceptedAt x.orderId < c.acceptedAt o.orderId) →
    (place s o xs).Pairwise (c.Before s)
  | [], _, _ => List.pairwise_singleton ..
  | m :: ms, h, hlast => by
    obtain ⟨hm, hms⟩ := List.pairwise_cons.mp h
    rw [place]
    split_ifs with hb
    · refine List.pairwise_cons.mpr ⟨fun x hx => .inl ?_, h⟩
      rcases List.mem_cons.mp hx with rfl | hx
      · exact hb
      · exact (hm x hx).better_left hb
    · have hrest := pairwise_place hms fun x hx => hlast x (List.mem_cons_of_mem _ hx)
      refine List.pairwise_cons.mpr ⟨fun x hx => ?_, hrest⟩
      rcases mem_place.mp hx with rfl | hx
      · rcases trichotomous_of (better s) x.price m.price with h' | h' | h'
        · exact absurd h' hb
        · exact .inr ⟨h'.symm, hlast m (List.mem_cons_self ..)⟩
        · exact .inl h'
      · exact hm x hx

theorem cancel (h : InLine k c) (id : OrderId) : InLine (k.cancel id).2 c :=
  h.shrink fun _ => List.filter_sublist.map _

/-- Matching takes orders off the line from its front. -/
theorem matched (h : InLine k c) (o : Order) :
    InLine (k.setSide o.side.opp (k.fillOf o).rest) c := by
  refine h.shrink fun s => ?_
  rcases o.side.eq_or_eq_opp s with rfl | rfl
  · rw [Book.setSide_of_opp]
  · rw [Book.setSide_self]; exact (rest_suffix ..).sublist

/-- An accepted order is the last to come, and its id is new to the book. -/
theorem accept (h : InLine k c) (ha : k.Accepts o) : InLine (k.accept o) (c.stamp o.orderId) := by
  have hnew := Book.find?_eq_none_iff.mp (Book.find?_fill_none (o := o) ha.2.2)
  have hm := h.matched o
  have hmem : ∀ s, ∀ x ∈ (k.setSide o.side.opp (k.fillOf o).rest) s, x.orderId ≠ o.orderId :=
    fun s x hx => hnew x ((Book.mem_orders _ s).mpr (.inl hx))
  have hs := hm.stamp hmem
  have hself : (c.stamp o.orderId).acceptedAt o.orderId = c.calls := Function.update_self ..
  rw [Book.accept]
  split_ifs with hr
  · refine ⟨fun s => ?_, fun s x hx => ?_⟩ <;> rcases o.side.eq_or_eq_opp s with rfl | rfl
    · rw [Book.rest, Book.setSide_self]
      refine pairwise_place (hs.line _) fun x hx => ?_
      have hkeep : (c.stamp o.orderId).acceptedAt x.orderId = c.acceptedAt x.orderId :=
        Function.update_of_ne (hmem _ x hx) ..
      rw [hkeep]
      exact lt_of_lt_of_eq (hm.past _ x hx) hself.symm
    · rw [Book.rest, Book.setSide_opp]
      exact hs.line _
    · rw [Book.rest, Book.setSide_self] at hx
      rcases mem_place.mp hx with rfl | hx
      · exact lt_of_eq_of_lt hself (Nat.lt_succ_self _)
      · exact hs.past _ x hx
    · rw [Book.rest, Book.setSide_opp] at hx
      exact hs.past _ x hx
  · exact hs

theorem empty : InLine (fun _ => []) c := ⟨fun _ => .nil, fun _ _ hx => nomatch hx⟩

end InLine

/-! ### Survivors -/

namespace Book
variable {k : Book} {o : Order}

theorem filter_place_of_neg {s : Side} {f : Order → Bool} (ho : f o = false) :
    ∀ xs : List Order, (place s o xs).filter f = xs.filter f
  | [] => List.filter_cons_of_neg (by simp [ho])
  | m :: ms => by
    rw [place]
    split_ifs
    · exact List.filter_cons_of_neg (by simp [ho])
    · rw [List.filter_cons, List.filter_cons, filter_place_of_neg ho ms]

/-- The orders that were there before a call and still are keep their relative order. -/
theorem survivors_call (k : Book) (c : Call) (s : Side) :
    ((((k.call c).2 s).filter fun x => (k.find? x.orderId).isSome).map Order.core).Sublist
      ((k s).map Order.core) := by
  cases c with
  | submit o out =>
    rw [Book.call, Book.submit]
    by_cases ha : k.Accepts o
    · rw [if_pos ha]
      dsimp only
      rcases o.side.eq_or_eq_opp s with rfl | rfl
      · rw [accept_own]
        split_ifs
        · rw [filter_place_of_neg (by dsimp only; rw [ha.2.2]; rfl)]
          exact List.filter_sublist.map _
        · exact List.filter_sublist.map _
      · rw [accept_opp]
        exact (List.filter_sublist.map _).trans (rest_suffix ..).sublist
    · rw [if_neg ha]
      exact List.filter_sublist.map _
  | cancel id => exact (List.filter_sublist.trans List.filter_sublist).map _
  | clear => exact List.nil_sublist _

end Book

/-! ### Runs -/

namespace PoolOrderBook
variable {b : PoolOrderBook} {c : Clock} {o : Order} {out : List Trade} {p : Price}

theorem inLine_call (b : PoolOrderBook) (clock : Clock) (c : Call)
    (h : b.Good ∧ InLine b.book clock) (hfit : (b.call c).2.Fits) : (b.call c).2.Good ∧
      InLine (b.call c).2.book (clock.record ⟨b, c, (b.call c).1, (b.call c).2⟩) := by
  obtain ⟨hgood, hline⟩ := h
  refine ⟨good_call b c hgood hfit, ?_⟩
  obtain ⟨-, hreply, hbook⟩ := call_spec hgood.1 c hfit
  rw [hbook]
  cases c with
  | submit o out =>
    rw [Clock.record]
    dsimp only
    by_cases ha : b.book.Accepts o
    · have hcall : b.book.call (.submit o out) =
          (⟨some true, out ++ (b.book.fillOf o).trades⟩, b.book.accept o) := by
        rw [Book.call, Book.submit, if_pos ha]
      rw [hreply, hcall, if_pos rfl]
      exact hline.accept ha
    · have hcall : b.book.call (.submit o out) = (⟨some false, out ++ []⟩, b.book) := by
        rw [Book.call, Book.submit, if_neg ha]
      rw [hreply, hcall, if_neg (by simp)]
      exact hline.tick
  | cancel id => exact (hline.cancel id).tick
  | clear => exact InLine.empty

/-- At every pass of the inner loop the maker is the head of the whole side. -/
theorem Inv.pass_maker (h : b.Inv) {m m' : Matching PoolOrderBook} (hm : b.Midway o out p m)
    (hstep : matchLevelStep o.side p m = some m') : ∃ maker others t,
      m.book.resting o.side.opp = maker :: others ∧ m'.outTrades = m.outTrades ++ [t] ∧
      t.makerOrderId = maker.orderId ∧ t.price = maker.price := by
  obtain ⟨post, v, hin⟩ := h.inLevel hm
  obtain ⟨l, hc, -⟩ := hin.level
  have hside : m.incoming.side = o.side := hin.run.side
  rw [matchLevelStep_eq hside (cut_head hc)] at hstep
  split_ifs at hstep with hgo hle
  all_goals
    obtain ⟨xs, hl⟩ := hin.run.shape.slots_of_head (cut_head hc) hgo.1
    cases hstep
    exact ⟨_, _, _, (resting_of_head hc hl).2, rfl, rfl, rfl⟩

/-- A trade emitted by a pass in the middle of a submission, with a maker that no order resting on
    its side at that moment has priority over. -/
def EmittedInTurn (b : PoolOrderBook) (c : Clock) (o : Order) (out : List Trade) (t : Trade) :
    Prop := ∃ p m m', b.Midway o out p m ∧ matchLevelStep o.side p m = some m' ∧
  m'.outTrades = m.outTrades ++ [t] ∧ ∃ maker ∈ m.book.resting o.side.opp,
    t.makerOrderId = maker.orderId ∧
    ∀ x ∈ m.book.resting o.side.opp, ¬ c.Before o.side.opp x maker

theorem Inv.pass_emits (h : b.Inv) (hline : InLine b.book c) {m m' : Matching PoolOrderBook}
    (hm : b.Midway o out p m) (hstep : matchLevelStep o.side p m = some m') :
    ∃ t, m'.outTrades = m.outTrades ++ [t] ∧ b.EmittedInTurn c o out t := by
  obtain ⟨maker, others, t, hrest, hout, hid, -⟩ := h.pass_maker hm hstep
  obtain ⟨post, v, hin⟩ := h.inLevel hm
  refine ⟨t, hout, p, m, m', hm, hstep, hout, maker, hrest ▸ List.mem_cons_self .., hid, ?_⟩
  -- the makers still there are a suffix of the line before the call
  have hpair : (m.book.resting o.side.opp).Pairwise (c.Before o.side.opp) :=
    InLine.pairwise_core (hline.line o.side.opp) hin.run.suffix.sublist
  rw [hrest] at hpair ⊢
  intro x hx
  rcases List.mem_cons.mp hx with rfl | hx
  · exact Clock.Before.irrefl
  · exact ((List.pairwise_cons.mp hpair).1 x hx).asymm

/-- All trades of a submission are emitted by passes, in turn. -/
theorem Inv.matched_emits (h : b.Inv) (hline : InLine b.book c) :
    ∃ ts, (b.matched o out).outTrades = out ++ ts ∧ ∀ t ∈ ts, b.EmittedInTurn c o out t := by
  have houter : Iterates (matchStep o.side) (b.entry o out) (b.matched o out) := loop_iterates ..
  generalize b.matched o out = m at houter ⊢
  induction houter with
  | refl => exact ⟨[], (List.append_nil out).symm, fun t ht => nomatch ht⟩
  | @tail m₁ m₂ h₁ h₂ ih =>
    rw [matchStep] at h₂
    cases hnext : nextLevel o.side m₁ with
    | none => rw [hnext] at h₂; cases h₂
    | some p =>
      rw [hnext] at h₂
      have hlevel : ∃ ts, (matchLevel o.side p m₁).outTrades = out ++ ts ∧
          ∀ t ∈ ts, b.EmittedInTurn c o out t := by
        have hinner : Iterates (matchLevelStep o.side p) m₁ (matchLevel o.side p m₁) :=
          loop_iterates ..
        generalize matchLevel o.side p m₁ = m at hinner ⊢
        induction hinner with
        | refl => exact ih
        | tail h₃ h₄ ih' =>
          obtain ⟨ts, hts, hall⟩ := ih'
          obtain ⟨t, hout, hturn⟩ := h.pass_emits hline ⟨m₁, h₁, hnext, h₃⟩ h₄
          refine ⟨ts ++ [t], by rw [hout, hts, List.append_assoc], fun t' ht' => ?_⟩
          rcases List.mem_append.mp ht' with ht' | ht'
          · exact hall t' ht'
          · exact List.mem_singleton.mp ht' ▸ hturn
      dsimp only at h₂
      split_ifs at h₂ <;> cases h₂ <;> exact hlevel

end PoolOrderBook

/-- At the end of every run each level is in the order of acceptance. From there, every trade of a
    submission is emitted with a maker that no order resting on its side has priority over, and no
    call changes the relative order of the orders that survive it. -/
theorem time_priority (initialCapacity : ℕ) (calls : List Call)
    (hn : (PoolOrderBook.ctor initialCapacity).Fits)
    (hfit : ∀ e ∈ history PoolOrderBook.call (.ctor initialCapacity) calls, e.after.Fits) :
    let b := final PoolOrderBook.call (.ctor initialCapacity) calls
    let clock := (history PoolOrderBook.call (.ctor initialCapacity) calls).foldl Clock.record {}
    (∀ s p, (b.levelOrders s p).Pairwise fun x y =>
      clock.acceptedAt x.orderId < clock.acceptedAt y.orderId) ∧
    (∀ o out, ∃ ts, (b.submitOrder o out).2.1 = out ++ ts ∧
      ∀ t ∈ ts, b.EmittedInTurn clock o out t) ∧
    ∀ c s, (b.call c).2.Fits →
      ((((b.call c).2.resting s).filter fun x => b.hasOrder x.orderId).map Order.core).Sublist
        ((b.resting s).map Order.core) := by
  intro b clock
  have hempty : InLine (PoolOrderBook.ctor initialCapacity).book {} := by
    rw [(PoolOrderBook.inv_ctor (PoolOrderBook.fits_ctor.mp hn)).2]
    exact .empty
  obtain ⟨hgood, hline⟩ : b.Good ∧ InLine b.book clock :=
    fold_invariant (I := fun b c => b.Good ∧ InLine b.book c) Clock.record
      PoolOrderBook.inLine_call calls ⟨PoolOrderBook.good_ctor hn, hempty⟩ hfit
  refine ⟨fun s p => ?_, fun o out => ?_, fun c s hfit => ?_⟩
  · rw [hgood.1.shape.levelOrders_eq, Book.queueAt]
    refine ((hline.line s).sublist List.filter_sublist).imp_of_mem fun {x y} hx hy hxy => ?_
    have hpx : x.price = p := by simpa using (List.mem_filter.mp hx).2
    have hpy : y.price = p := by simpa using (List.mem_filter.mp hy).2
    rcases hxy with hb | ⟨-, hlt⟩
    · rw [hpx, hpy] at hb
      exact absurd hb (better_irrefl s p)
    · exact hlt
  · have heq := PoolOrderBook.submitOrder_eq hgood.1 o out
    by_cases ha : b.book.Accepts o
    · rw [if_pos ha] at heq
      have hout : (b.submitOrder o out).2.1 = (b.matched o out).outTrades := by
        rw [heq]; split_ifs <;> rfl
      rw [hout]
      exact hgood.1.matched_emits hline
    · rw [if_neg ha] at heq
      refine ⟨[], by rw [heq, List.append_nil], fun t ht => ?_⟩
      cases ht
  · rw [show b.hasOrder = fun id => (b.book.find? id).isSome from funext hgood.1.hasOrder_eq]
    obtain ⟨-, -, hbook⟩ := PoolOrderBook.call_spec hgood.1 c hfit
    have hs := b.book.survivors_call c s
    rw [← hbook] at hs
    exact hs

theorem time_priority_tradingDay :
    let clock := (history PoolOrderBook.call (.ctor 1) tradingDay).foldl Clock.record {}
    (∀ s p, (tradingDayClose.levelOrders s p).Pairwise fun x y =>
      clock.acceptedAt x.orderId < clock.acceptedAt y.orderId) ∧
    (∀ o out, ∃ ts, (tradingDayClose.submitOrder o out).2.1 = out ++ ts ∧
      ∀ t ∈ ts, tradingDayClose.EmittedInTurn clock o out t) ∧
    ∀ c s, (tradingDayClose.call c).2.Fits →
      ((((tradingDayClose.call c).2.resting s).filter fun x =>
        tradingDayClose.hasOrder x.orderId).map Order.core).Sublist
        ((tradingDayClose.resting s).map Order.core) :=
  time_priority 1 tradingDay tradingDay_fits.1 tradingDay_fits.2

end Titan
