import Titan.Schemes.Shelves
import Titan.Engine.Cancel

/-! Orders that cannot trade with each other, and a book rebuilt from its orders.

    Where all buys are below all sells, every submission comes to rest. What the book holds then is
    each level's orders in the order of submission, however the levels and the sides are interleaved.
    The resting orders of a book are such a flow, so a new pool can be filled with them. -/

namespace Titan
open Schemes

/-- The level that an order belongs to. -/
def Order.level (o : Order) : Side × Price := (o.side, o.price)

/-- An order as it rests when nothing of it trades. -/
def Order.whole (o : Order) : Order := { o with remainingQuantity := o.effective }

theorem Order.whole_of_remaining {o : Order} (h : o.remainingQuantity ≠ 0) : o.whole = o := by
  rw [whole, effective, if_neg h]

/-- Limit orders under different ids, all buys below all sells. -/
structure Uncrossed (os : List Order) : Prop where
  ids : (os.map (·.orderId)).Nodup
  limit : ∀ o ∈ os, o.type = .limit ∧ o.price ≠ 0 ∧ o.initialQuantity ≠ 0
  uncrossed : ∀ x ∈ os, ∀ y ∈ os, x.side = .buy → y.side = .sell → x.price < y.price

theorem Uncrossed.of_append {os os' : List Order} (hos : Uncrossed (os ++ os')) : Uncrossed os where
  ids := by
    have hids := hos.ids
    rw [List.map_append, List.nodup_append] at hids
    exact hids.1
  limit o ho := hos.limit o (List.mem_append_left _ ho)
  uncrossed x hx y hy :=
    hos.uncrossed x (List.mem_append_left _ hx) y (List.mem_append_left _ hy)

/-- The submissions of a list of orders. -/
def entries (os : List Order) : List Call := os.map fun o => .submit o []

/-- The book holds the orders `os`, each level in their order. -/
structure Book.Holds (k : Book) (os : List Order) : Prop where
  sane : k.Sane
  queueAt : ∀ s p, k.queueAt s p = (shelf Order.level os (s, p)).map Order.whole

namespace Book
variable {k : Book} {os : List Order} {o : Order}

theorem Holds.mem_iff (h : k.Holds os) {s : Side} {x : Order} :
    x ∈ k s ↔ ∃ y ∈ os, y.side = s ∧ y.whole = x := by
  constructor
  · intro hx
    have hq : x ∈ k.queueAt s x.price := mem_queueAt.mpr ⟨hx, rfl⟩
    rw [h.queueAt] at hq
    obtain ⟨y, hy, hyx⟩ := List.mem_map.mp hq
    obtain ⟨hyos, hlevel⟩ := mem_shelf.mp hy
    exact ⟨y, hyos, congrArg Prod.fst hlevel, hyx⟩
  · rintro ⟨y, hy, hside, rfl⟩
    have hq : y.whole ∈ k.queueAt s y.price := by
      rw [h.queueAt]
      exact List.mem_map_of_mem (mem_shelf.mpr ⟨hy, by rw [Order.level, hside]⟩)
    exact (mem_queueAt.mp hq).1

/-- In an uncrossed flow the next order is accepted. -/
theorem Holds.accepts (h : k.Holds os) (hos : Uncrossed (os ++ [o])) : k.Accepts o := by
  obtain ⟨hlimit, hprice, hinitial⟩ := hos.limit o (by simp)
  refine ⟨hinitial, fun hx => hprice hx.2, find?_eq_none_iff.mpr fun x hx hid => ?_⟩
  obtain ⟨s, hs⟩ := exists_mem_side hx
  obtain ⟨y, hy, -, rfl⟩ := h.mem_iff.mp hs
  have hids := hos.ids
  rw [List.map_append, List.nodup_append] at hids
  exact hids.2.2 _ (List.mem_map_of_mem hy) o.orderId (by simp) hid

/-- In an uncrossed flow the next order finds no maker. -/
theorem Holds.not_reaches (h : k.Holds os) (hos : Uncrossed (os ++ [o])) :
    ∀ m ∈ k o.side.opp, ¬ o.Reaches m.price := by
  intro m hm
  obtain ⟨y, hy, hside, rfl⟩ := h.mem_iff.mp hm
  have hyos : y ∈ os ++ [o] := List.mem_append_left _ hy
  have hoos : o ∈ os ++ [o] := by simp
  refine Order.not_reaches.mpr ⟨(hos.limit o hoos).1, ?_⟩
  cases hs : o.side with
  | buy => exact hos.uncrossed o hoos y hyos hs (by rw [hside, hs, Side.opp])
  | sell => exact hos.uncrossed y hyos o hoos (by rw [hside, hs, Side.opp]) hs

theorem Holds.fillOf (h : k.Holds os) (hos : Uncrossed (os ++ [o])) :
    k.fillOf o = ⟨[], o.effective, k o.side.opp⟩ :=
  fill_stopped o (.inr (h.not_reaches hos))

/-- In an uncrossed flow the next order comes to rest as a whole. -/
theorem Holds.submit (h : k.Holds os) (hos : Uncrossed (os ++ [o])) :
    k.submit o = (true, [], k.rest o.whole) := by
  have ha := h.accepts hos
  have hlimit := (hos.limit o (by simp)).1
  have hself : k.setSide o.side.opp (k o.side.opp) = k := Function.update_eq_self ..
  rw [Book.submit, if_pos ha, accept, h.fillOf hos]
  dsimp only
  rw [if_pos ⟨ha.effective_ne_zero, hlimit⟩, hself, Order.whole]

/-- An order that comes to rest is the last one of its level. -/
theorem queueAt_rest (hsorted : (k o.side).Pairwise fun x y => ¬ better o.side y.price x.price)
    (s : Side) (p : Price) :
    (k.rest o).queueAt s p = k.queueAt s p ++ if o.level = (s, p) then [o] else [] := by
  rw [Book.rest]
  rcases o.side.eq_or_eq_opp s with rfl | rfl
  · rw [Book.queueAt, setSide_self, filter_place hsorted p]
    refine congrArg _ ?_
    by_cases hp : o.price = p <;> simp [hp, Order.level]
  · rw [Book.queueAt, setSide_opp, ← Book.queueAt]
    simp [Order.level]

theorem Holds.rest (h : k.Holds os) (hos : Uncrossed (os ++ [o])) :
    (k.rest o.whole).Holds (os ++ [o]) := by
  have hsane := h.sane.submit o
  rw [h.submit hos] at hsane
  refine ⟨hsane, fun s p => ?_⟩
  have hlevel : o.whole.level = o.level := rfl
  rw [queueAt_rest (h.sane.sorted _), hlevel, h.queueAt, shelf_concat, List.map_append]
  refine congrArg _ ?_
  split_ifs <;> rfl

/-- A flow without crossing orders is accepted order by order and none of it trades. -/
theorem holds_entries (hos : Uncrossed os) :
    (∀ e ∈ history Book.call (fun _ => []) (entries os), e.reply = ⟨some true, []⟩) ∧
      (final Book.call (fun _ => []) (entries os)).Holds os := by
  induction os using List.reverseRecOn with
  | nil => exact ⟨nofun, .empty, fun _ _ => rfl⟩
  | append_singleton os o ih =>
    obtain ⟨hreplies, hholds⟩ := ih hos.of_append
    have hsubmit := hholds.submit hos
    have hcall : (final Book.call (fun _ => []) (entries os)).call (.submit o []) =
        (⟨some true, []⟩, (final Book.call (fun _ => []) (entries os)).rest o.whole) := by
      rw [Book.call, hsubmit]
      rfl
    have hentries : entries (os ++ [o]) = entries os ++ [.submit o []] := List.map_append
    rw [hentries, history_append, final_append]
    refine ⟨?_, ?_⟩
    · intro e he
      rcases List.mem_append.mp he with he | he
      · exact hreplies e he
      · rw [List.mem_singleton.mp he]
        exact congrArg Prod.fst hcall
    · rw [final, final, hcall]
      exact hholds.rest hos

/-- Two sane books with the same levels are one. -/
theorem Sane.ext_queueAt {k' : Book} (h : k.Sane) (h' : k'.Sane)
    (hq : ∀ s p, k.queueAt s p = k'.queueAt s p) : k = k' :=
  funext fun s => eq_of_shelves (·.price) (h.sorted s) (h'.sorted s) (hq s)

/-- The orders of a book, in any order that keeps those of each level in line. -/
def Lists (k : Book) (os : List Order) : Prop :=
  ∀ s p, shelf Order.level os (s, p) = k.queueAt s p

theorem Lists.mem_iff (h : k.Lists os) : o ∈ os ↔ o ∈ k o.side := by
  have hshelf : o ∈ shelf Order.level os (o.side, o.price) ↔ o ∈ os := by
    rw [mem_shelf]
    exact and_iff_left rfl
  rw [← hshelf, h, mem_queueAt]
  exact and_iff_left rfl

theorem Lists.rest (h : k.Lists os)
    (hsorted : (k o.side).Pairwise fun x y => ¬ better o.side y.price x.price) :
    (k.rest o).Lists (os ++ [o]) := by
  intro s p
  rw [shelf_concat, h, queueAt_rest hsorted]

/-- The two sides one after the other are such an order. -/
theorem Sane.lists_orders (hk : k.Sane) : k.Lists k.orders := by
  intro s p
  have hside : ∀ t, (k t).filter (fun o => o.level = (s, p)) = if t = s then k.queueAt s p else [] := by
    intro t
    by_cases ht : t = s
    · subst ht
      rw [if_pos rfl, queueAt]
      refine List.filter_congr fun o ho => ?_
      simp [Order.level, (hk.orders t o ho).1]
    · rw [if_neg ht, List.filter_eq_nil_iff]
      intro o ho
      simp [Order.level, (hk.orders t o ho).1, ht]
  rw [shelf, Book.orders, List.filter_append, hside, hside]
  cases s <;> simp

theorem Lists.perm (h : k.Lists os) (hk : k.Sane) : os.Perm k.orders := by
  refine perm_of_shelves Order.level ?_
  rintro ⟨s, p⟩
  rw [h, hk.lists_orders]

/-- What rests in a sane book does not cross. -/
theorem Lists.uncrossed (h : k.Lists os) (hk : k.Sane) : Uncrossed os where
  ids := ((h.perm hk).map _).nodup_iff.mpr hk.ids
  limit o ho := by
    obtain ⟨-, hlimit, hprice, hinitial, -⟩ := hk.orders _ o (h.mem_iff.mp ho)
    exact ⟨hlimit, hprice, hinitial⟩
  uncrossed x hx y hy hbuy hsell := by
    have hxk := h.mem_iff.mp hx
    have hyk := h.mem_iff.mp hy
    rw [hbuy] at hxk
    rw [hsell] at hyk
    exact hk.uncrossed .sell y hyk x hxk

/-- Submitting the orders of a sane book again gives the book again. -/
theorem Lists.rebuilds (h : k.Lists os) (hk : k.Sane) :
    (∀ e ∈ history Book.call (fun _ => []) (entries os), e.reply = ⟨some true, []⟩) ∧
      final Book.call (fun _ => []) (entries os) = k := by
  obtain ⟨hreplies, hholds⟩ := holds_entries (h.uncrossed hk)
  refine ⟨hreplies, hholds.sane.ext_queueAt hk fun s p => ?_⟩
  rw [hholds.queueAt, h]
  refine (List.map_congr_left fun o ho => ?_).trans (List.map_id _)
  exact Order.whole_of_remaining (hk.orders s o (mem_queueAt.mp ho).1).2.2.2.2

end Book

namespace PoolOrderBook
variable {b b' : PoolOrderBook} {os : List Order}

/-- On a new pool a run of calls is the run on the empty book. -/
theorem history_ctor {n : ℕ} (hn : (ctor n).Fits) (calls : List Call)
    (hfit : ∀ e ∈ history call (ctor n) calls, e.after.Fits) :
    List.Forall₂ (fun e f => e.call = f.call ∧ e.reply = f.reply) (history call (ctor n) calls)
      (history Book.call (fun _ => []) calls) ∧
    (final call (ctor n) calls).Good ∧
    (final call (ctor n) calls).book = final Book.call (fun _ => []) calls := by
  obtain ⟨hinv, hbook⟩ := inv_ctor (fits_ctor.mp hn)
  have hstep : ∀ (b : PoolOrderBook) (k : Book) (c d : Call), b.Inv ∧ b.book = k → c = d →
      (b.call c).2.Fits → True →
      (b.call c).1 = (k.call d).1 ∧ (b.call c).2.Inv ∧ (b.call c).2.book = (k.call d).2 := by
    rintro b _ c _ ⟨hb, rfl⟩ rfl hf -
    obtain ⟨h1, h2, h3⟩ := call_spec hb c hf
    exact ⟨h2, h1, h3⟩
  have hrel := history_related (W := fun _ => True)
    (P := fun e : Event PoolOrderBook Call Reply => e.after.Fits)
    (R := fun (b : PoolOrderBook) k => b.Inv ∧ b.book = k) hstep
    (List.forall₂_same.mpr fun _ _ => rfl) ⟨hinv, hbook⟩ hfit fun _ _ => trivial
  exact ⟨hrel.1.imp fun e f h => ⟨h.1, h.2.1⟩,
    final_invariant good_call calls (good_ctor hn) hfit, hrel.2.2⟩

/-- Limit orders that cannot trade with each other are all accepted, whatever the order in which they
    come in; none trades, and each level holds its own in that order. -/
theorem uncrossed_flow (initialCapacity : ℕ) (hos : Uncrossed os)
    (hn : (ctor initialCapacity).Fits)
    (hfit : ∀ e ∈ history call (ctor initialCapacity) (entries os), e.after.Fits) :
    (∀ e ∈ history call (ctor initialCapacity) (entries os), e.reply = ⟨some true, []⟩) ∧
    ∀ s p, (final call (ctor initialCapacity) (entries os)).levelOrders s p =
      (os.filter fun o => o.side = s ∧ o.price = p).map Order.whole := by
  obtain ⟨hreplies, hholds⟩ := Book.holds_entries hos
  obtain ⟨hall, hgood, hbook⟩ := history_ctor hn (entries os) hfit
  refine ⟨fun e he => ?_, fun s p => ?_⟩
  · obtain ⟨f, hf, -, hef⟩ := exists_related hall he
    exact hef.trans (hreplies f hf)
  · rw [hgood.1.shape.levelOrders_eq, hbook, hholds.queueAt, shelf]
    simp only [Order.level, Prod.mk.injEq]

/-- Two clients of the morning: their orders come in alternately. -/
def quietMorning : List Order :=
  [{ orderId := 11, price := 99, initialQuantity := 10 },
   { orderId := 21, price := 101, initialQuantity := 10, side := .sell },
   { orderId := 12, price := 99, initialQuantity := 7, remainingQuantity := 4 },
   { orderId := 22, price := 100, initialQuantity := 5, side := .sell }]

theorem quietMorning_uncrossed : Uncrossed quietMorning where
  ids := by decide
  limit := by decide
  uncrossed := by decide

theorem uncrossed_flow_quietMorning :
    (∀ e ∈ history call (ctor 1) (entries quietMorning), e.reply = ⟨some true, []⟩) ∧
    ∀ s p, (final call (ctor 1) (entries quietMorning)).levelOrders s p =
      (quietMorning.filter fun o => o.side = s ∧ o.price = p).map Order.whole :=
  uncrossed_flow 1 quietMorning_uncrossed (by decide) (by decide)

/-! ### Rebuilding a pool -/

/-- A submission that does not trade leaves no level half matched. -/
theorem stepsClean_of_quiet (h : b.Good) {o : Order} (hfit : (b.call (.submit o [])).2.Fits)
    (hquiet : (b.call (.submit o [])).1 = ⟨some true, []⟩) : b.StepsClean (.submit o []) := by
  rintro ⟨ha, hends⟩
  obtain ⟨-, hreply, -⟩ := call_spec h.1 _ hfit
  rw [hquiet, Book.call, Book.submit, if_pos ha] at hreply
  have hnone : (b.book.fillOf o).trades = [] := by simpa using hreply.symm
  refine (Book.not_endsInside_iff h.2).mpr (fun p _ => ?_) hends
  rw [hnone]
  rfl

/-- An uncrossed flow leaves the level counters right. -/
theorem exact_entries {n : ℕ} (hos : Uncrossed os) (hn : (ctor n).Fits)
    (hfit : ∀ e ∈ history call (ctor n) (entries os), e.after.Fits) :
    (final call (ctor n) (entries os)).Exact := by
  obtain ⟨hinv, hbook⟩ := inv_ctor (fits_ctor.mp hn)
  have hstart := exact_of_empty hinv hbook
  obtain ⟨hreplies, -⟩ := uncrossed_flow n hos hn hfit
  refine final_invariant (P := Exact) (fun _ _ _ h => h) (entries os) hstart ?_
  refine (exact_history_iff (entries os) (good_ctor hn) hstart hfit).mpr fun e he => ?_
  obtain ⟨pre, post, hcalls, hbefore, hstep⟩ := of_mem_history he
  have hgood : e.before.Good := by
    rw [hbefore]
    refine final_invariant good_call pre (good_ctor hn) fun f hf => hfit f ?_
    rw [hcalls, history_append]
    exact List.mem_append_left _ hf
  obtain ⟨o, -, hcall⟩ : ∃ o ∈ os, .submit o [] = e.call := by
    have hmem : e.call ∈ entries os := by rw [hcalls]; simp
    exact List.mem_map.mp hmem
  have hreply := hreplies e he
  have hafter := hfit e he
  obtain ⟨h1, h2⟩ := Prod.mk.inj hstep
  rw [h1, ← hcall] at hreply
  rw [h2, ← hcall] at hafter
  rw [← hcall]
  exact stepsClean_of_quiet hgood hafter hreply

/-- Where the counters are right they are decided by the book. -/
theorem Exact.twin (h : b.Exact) (h' : b'.Exact) (hinv : b.Inv) (hinv' : b'.Inv)
    (hbook : b.book = b'.book) : Twin b b' := by
  refine ⟨hinv, hinv', hbook, ?_⟩
  funext s p
  rw [h s p, h' s p, hinv.shape.levelOrders_eq, hinv'.shape.levelOrders_eq, hbook]

/-- No run of calls tells pools of one book apart, but by the level counters. -/
theorem Inv.forever (h : b.Inv) (h' : b'.Inv) (hbook : b.book = b'.book) (calls : List Call)
    (hfit : ∀ e ∈ history call b calls, e.after.Fits)
    (hfit' : ∀ f ∈ history call b' calls, f.after.Fits) :
    List.Forall₂ (fun e f => e.call = f.call ∧ e.reply = f.reply ∧ Alike e.before f.before ∧
      Alike e.after f.after) (history call b calls) (history call b' calls) := by
  have hrel := (history_related (C := Eq) (Q := Eq)
    (R := fun x y : PoolOrderBook => x.Inv ∧ y.Inv ∧ x.book = y.book) ?_
    (List.forall₂_same.mpr fun _ _ => rfl) ⟨h, h', hbook⟩ hfit hfit').1
  · refine hrel.imp ?_
    rintro e f ⟨hc, hr, ⟨h1, h2, h3⟩, h4, h5, h6⟩
    exact ⟨hc, hr, h1.alike h2 h3, h4.alike h5 h6⟩
  · rintro x y c _ ⟨hx, hy, hxy⟩ rfl hfx hfy
    obtain ⟨h1, h2, h3⟩ := call_spec hx c hfx
    obtain ⟨h4, h5, h6⟩ := call_spec hy c hfy
    exact ⟨by rw [h2, h5, hxy], h1, h4, by rw [h3, h6, hxy]⟩

/-- A new pool that is given the resting orders of another one, in any order that keeps each level in
    line, takes them all without a trade, and from then on no run of calls tells the two apart but by
    the level counters. Those of the new pool are right; if those of the old one are, no run of calls
    tells the two apart at all. -/
theorem rebuild (h : b.Reachable)
    (hos : ∀ s p, os.filter (fun o => o.side = s ∧ o.price = p) = b.levelOrders s p)
    (initialCapacity : ℕ) (hn : (ctor initialCapacity).Fits)
    (hfit : ∀ e ∈ history call (ctor initialCapacity) (entries os), e.after.Fits) :
    (∀ e ∈ history call (ctor initialCapacity) (entries os), e.reply = ⟨some true, []⟩) ∧
    (final call (ctor initialCapacity) (entries os)).Exact ∧
    ∀ calls, (∀ e ∈ history call b calls, e.after.Fits) →
      (∀ f ∈ history call (final call (ctor initialCapacity) (entries os)) calls, f.after.Fits) →
      List.Forall₂ (fun e f => e.call = f.call ∧ e.reply = f.reply ∧ Alike e.before f.before ∧
        Alike e.after f.after) (history call b calls)
        (history call (final call (ctor initialCapacity) (entries os)) calls) ∧
      (b.Exact → List.Forall₂ (fun e f => e.call = f.call ∧ e.reply = f.reply ∧
        Indistinct e.before f.before ∧ Indistinct e.after f.after) (history call b calls)
        (history call (final call (ctor initialCapacity) (entries os)) calls)) := by
  obtain ⟨hinv, hsane⟩ := h.good
  have hlists : b.book.Lists os := by
    intro s p
    rw [← hinv.shape.levelOrders_eq, ← hos, shelf]
    simp only [Order.level, Prod.mk.injEq]
  obtain ⟨-, hgood, hbook⟩ := history_ctor hn (entries os) hfit
  rw [(hlists.rebuilds hsane).2] at hbook
  have huncrossed := hlists.uncrossed hsane
  have hexact := exact_entries huncrossed hn hfit
  refine ⟨(uncrossed_flow _ huncrossed hn hfit).1, hexact, fun calls hcalls hcalls' => ⟨?_, ?_⟩⟩
  · exact hinv.forever hgood.1 hbook.symm calls hcalls hcalls'
  · intro hb
    exact (hb.twin hexact hinv hgood.1 hbook.symm).forever calls hcalls hcalls'

/-- The orders of a pool, one side after the other, keep each level in line. -/
theorem Good.filter_resting (h : b.Good) (s : Side) (p : Price) :
    (b.resting .buy ++ b.resting .sell).filter (fun o => o.side = s ∧ o.price = p) =
      b.levelOrders s p := by
  rw [h.1.shape.levelOrders_eq, ← h.2.lists_orders, shelf]
  simp only [Order.level, Prod.mk.injEq]
  rfl

/-- The bids of the end of the day, placed in a pool of one slot; and what rests there, placed in a
    pool of three. -/
theorem rebuild_close :
    let os := tradingDayClose.resting .buy ++ tradingDayClose.resting .sell
    let rebuilt := final call (ctor 1) (entries os)
    let again := final call (ctor 3) (entries (rebuilt.resting .buy ++ rebuilt.resting .sell))
    os.map (·.orderId) = [1, 6] ∧
    (∀ e ∈ history call (ctor 1) (entries os), e.reply = ⟨some true, []⟩) ∧ rebuilt.Exact ∧
    List.Forall₂ (fun e f => e.call = f.call ∧ e.reply = f.reply ∧ Alike e.before f.before ∧
        Alike e.after f.after) (history call tradingDayClose tradingDay)
      (history call rebuilt tradingDay) ∧
    List.Forall₂ (fun e f => e.call = f.call ∧ e.reply = f.reply ∧ Indistinct e.before f.before ∧
        Indistinct e.after f.after) (history call rebuilt tradingDay)
      (history call again tradingDay) := by
  intro os rebuilt again
  have hclose := tradingDayClose_reachable
  have hrebuilt : rebuilt.Reachable := ⟨1, entries os, by decide, by decide, rfl⟩
  obtain ⟨hreplies, hexact, hrun⟩ := rebuild hclose hclose.good.filter_resting 1 (by decide)
    (by decide)
  have hrun' := (rebuild hrebuilt hrebuilt.good.filter_resting 3 (by decide) (by decide)).2.2
    tradingDay (by decide) (by decide)
  exact ⟨by decide, hreplies, hexact, (hrun tradingDay (by decide) (by decide)).1, hrun'.2 hexact⟩

end PoolOrderBook

end Titan
