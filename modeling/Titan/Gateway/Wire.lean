import Titan.Engine.Flush
import Titan.Engine.Ledger
import Titan.Gateway.Server
import Titan.Reports

/-! What a client learns from the response to its command.

    The payload is put together after the fact, from the trades and a lookup under the id. It is the
    text of a list of reports that account for the whole quantity of a limit order, and that consist
    of one rejection exactly when the command changed nothing. -/

namespace Titan
open Schemes

/-! ### Commands that change nothing -/

namespace PoolOrderBook
variable {b b' : PoolOrderBook} {o : Order} {id : OrderId}

theorem Good.remaining_ne_zero (h : b.Good) (hf : b.getOrder id = some o) :
    o.remainingQuantity ≠ 0 := by
  rw [h.1.getOrder_eq, Book.find?_eq_some_iff h.2.ids] at hf
  obtain ⟨s, hs⟩ := Book.exists_mem_side hf.1
  exact (h.2.orders s o hs).2.2.2.2

/-- Pools that answer alike hold the same orders. -/
theorem Alike.orders_perm (ha : Alike b b') (h : b.Good) (h' : b'.Good) :
    b.book.orders.Perm b'.book.orders := by
  refine (List.perm_ext_iff_of_nodup (h.2.ids.of_map _) (h'.2.ids.of_map _)).mpr fun x => ?_
  have hmem : ∀ {c : PoolOrderBook}, c.Good → (x ∈ c.book.orders ↔ c.getOrder x.orderId = some x) := by
    intro c hc
    rw [hc.1.getOrder_eq, Book.find?_eq_some_iff hc.2.ids]
    simp
  rw [hmem h, hmem h', ha.getOrder]

/-- An accepted submission can be noticed, unless it is a market order that finds no maker. -/
theorem indistinct_submitOrder_iff (h : b.Reachable) (hacc : b.book.Accepts o)
    (hfit : (b.submitOrder o []).2.2.Fits) : Indistinct b (b.submitOrder o []).2.2 ↔
      (b.book.fillOf o).trades = [] ∧ o.type = .market := by
  obtain ⟨hinv, hsane⟩ := h.good
  obtain ⟨hinv', -, hbook⟩ := submitOrder_accepted hinv hacc hfit
  have hgood' : (b.submitOrder o []).2.2.Good := (h.call (.submit o []) hfit).good
  have hpos := fun m hm => (hsane.orders o.side.opp m hm).2.2.2.2
  constructor
  · rintro ⟨ha, -⟩
    have htotal := Book.total_accept b.book o
    rw [← hbook, ← Book.total_perm (ha.orders_perm h.good hgood')] at htotal
    have hsplit := b.book.traded_fillOf o
    have hself := ha.getOrder o.orderId
    rw [hinv.getOrder_eq, hinv'.getOrder_eq, hacc.2.2, hbook, Book.find?_accept_self hacc] at hself
    cases ht : o.type with
    | limit =>
      -- a limit order without a remainder has traded
      have hleft : (b.book.fillOf o).left = 0 := by
        by_contra hne
        rw [if_pos ⟨hne, ht⟩] at hself
        cases hself
      have heff : o.effective.toNat ≠ 0 := fun h0 => hacc.effective_ne_zero (UInt32.toNat_inj.mp h0)
      rw [hleft, UInt32.toNat_zero] at hsplit
      rw [if_neg (by rw [ht]; decide)] at htotal
      omega
    | market =>
      rw [if_pos ht] at htotal
      exact ⟨(fill_trades_eq_nil_iff o hpos).mpr (by rw [← Book.fillOf]; omega), rfl⟩
  · rintro ⟨hnil, hm⟩
    have hfill : b.book.fillOf o = ⟨[], o.effective, b.book o.side.opp⟩ := fill_of_no_trades o hnil
    have hsame : b.book.setSide o.side.opp (b.book.fillOf o).rest = b.book := by
      rw [hfill]
      exact Book.ext_sides o.side (Book.setSide_of_opp ..) (Book.setSide_self ..)
    have hmarket : ¬ ((b.book.fillOf o).left ≠ 0 ∧ o.type = .limit) := by
      rw [hm]
      rintro ⟨-, hl⟩
      cases hl
    refine Twin.indistinct ⟨hinv, hinv', ?_, funext fun s => funext fun p => ?_⟩
    · rw [hbook, Book.accept, if_neg hmarket, hsame]
    · rw [volume_submitOrder hinv o [] hfit, Book.countersAfter, if_pos hacc, hsame]
      simp only [hmarket, false_and, if_false, UInt32.add_zero]
      split_ifs with hq
      · exact hinv.volume_of_empty hq
      · rfl

/-- A cancel can be noticed when the order is there. -/
theorem indistinct_cancelOrder_iff (h : b.Reachable) (id : OrderId) :
    Indistinct b (b.cancelOrder id).2 ↔ (b.cancelOrder id).1 = false := by
  obtain ⟨hinv, -⟩ := h.good
  have hinv' := (cancelOrder_spec hinv id).1
  have hflag := flag_cancelOrder hinv id
  constructor
  · rintro ⟨ha, -⟩
    rw [hflag, ← hinv.hasOrder_eq, ha.hasOrder, hinv'.hasOrder_eq, book_cancelOrder hinv,
      Book.find?_cancel_self]
    rfl
  · intro hno
    have hnone : b.orderIndex.find? id = none := by
      rw [hinv.index_none_iff, ← Option.not_isSome_iff_eq_none, ← hflag, hno]
      decide
    rw [cancelOrder, hnone]
    exact Twin.indistinct ⟨hinv, hinv, rfl, rfl⟩

end PoolOrderBook

/-! ### Commands off the wire -/

/-- An order comes off the wire with nothing filled. -/
theorem parseLine_remaining (now : Timestamp) (line : Text) :
    (Protocol.parseLine now line).order.remainingQuantity =
      (Protocol.parseLine now line).order.initialQuantity := by
  have hnew : ∀ tokens, (Protocol.parseNew now tokens).order.remainingQuantity =
      (Protocol.parseNew now tokens).order.initialQuantity := by
    intro tokens
    unfold Protocol.parseNew
    repeat' split
    all_goals rfl
  have hcancel : ∀ tokens, (Protocol.parseCancel tokens).order = {} := by
    intro tokens
    unfold Protocol.parseCancel
    repeat' split
    all_goals rfl
  unfold Protocol.parseLine
  split
  · rfl
  · split_ifs
    · exact hnew _
    · rw [hcancel]
    · rfl
    · rfl

theorem parseLine_effective (now : Timestamp) (line : Text) :
    (Protocol.parseLine now line).order.effective =
      (Protocol.parseLine now line).order.initialQuantity := by
  rw [Order.effective, parseLine_remaining, ite_self]

/-! ### Answers -/

/-- The last report of an accepted submission, if there is one. -/
def conclusion (o : Order) (trades : List Trade) : Option Order → List Report
  | some resting => [.ack o.orderId resting.remainingQuantity]
  | none =>
    if trades = [] ∧ o.type = .market
    then [.reject o.orderId "NO_LIQUIDITY_FOR_MARKET_ORDER".toList] else []

/-- The reports on a command. -/
def answer (b : PoolOrderBook) (command : ParsedCommand) : List Report :=
  match command.type with
  | .flush => [.info "BOOK_FLUSHED".toList]
  | .cancel =>
    if (b.cancelOrder command.cancelId).1 then [.canceled command.cancelId]
    else [.reject command.cancelId "ORDER_NOT_FOUND".toList]
  | .new =>
    let (ok, trades, book) := b.submitOrder command.order []
    if ok then
      trades.map .trade ++ conclusion command.order trades (book.getOrder command.order.orderId)
    else [.reject command.order.orderId "DUPLICATE_OR_INVALID_ORDER".toList]
  | .unknown => []

section Answers
variable {b : PoolOrderBook} {msg : IngressMessage} {o : Order}

theorem oneLine_of_mem_conclusion (o : Order) (trades : List Trade) (resting : Option Order) :
    ∀ r ∈ conclusion o trades resting, r.OneLine := by
  intro r hr
  unfold conclusion at hr
  split at hr
  · rw [List.mem_singleton.mp hr]
    trivial
  · split_ifs at hr
    · rw [List.mem_singleton.mp hr]
      show '\n' ∉ _
      decide
    · nomatch hr

theorem oneLine_of_mem_answer (b : PoolOrderBook) (command : ParsedCommand) :
    ∀ r ∈ answer b command, r.OneLine := by
  intro r hr
  unfold answer at hr
  split at hr
  · rw [List.mem_singleton.mp hr]
    show '\n' ∉ _
    decide
  · split_ifs at hr <;> rw [List.mem_singleton.mp hr]
    · trivial
    · show '\n' ∉ _
      decide
  · dsimp only at hr
    split_ifs at hr
    · rcases List.mem_append.mp hr with hr | hr
      · obtain ⟨t, -, rfl⟩ := List.mem_map.mp hr
        trivial
      · exact oneLine_of_mem_conclusion _ _ _ r hr
    · rw [List.mem_singleton.mp hr]
      show '\n' ∉ _
      decide
  · nomatch hr

theorem book_of_new (ht : msg.command.type = .new) :
    (executeCommand b msg).2 = (b.submitOrder msg.command.order []).2.2 := by
  unfold executeCommand
  rw [ht]
  dsimp only
  split_ifs <;> rfl

theorem book_of_cancel (ht : msg.command.type = .cancel) :
    (executeCommand b msg).2 = (b.cancelOrder msg.command.cancelId).2 := by
  unfold executeCommand
  rw [ht]

/-- The payload is the text of the answer. -/
theorem payload_eq (h : b.Reachable) (hfit : (executeCommand b msg).2.Fits) :
    (executeCommand b msg).1 = Report.wire (answer b msg.command) := by
  cases ht : msg.command.type with
  | flush =>
    unfold executeCommand answer
    rw [ht]
    dsimp only
    rw [Report.wire, List.flatMap_singleton]
    rfl
  | cancel =>
    unfold executeCommand answer
    rw [ht]
    dsimp only
    split_ifs <;> (rw [Report.wire, List.flatMap_singleton]; rfl)
  | new =>
    rw [book_of_new ht] at hfit
    have hgood : (b.submitOrder msg.command.order []).2.2.Good :=
      (h.call (.submit msg.command.order []) hfit).good
    unfold executeCommand answer
    rw [ht]
    dsimp only
    by_cases hok : (b.submitOrder msg.command.order []).1 = true
    · rw [if_pos hok, if_pos hok, Report.wire, List.flatMap_append, List.flatMap_map]
      refine congrArg (_ ++ ·) ?_
      cases hf : (b.submitOrder msg.command.order []).2.2.getOrder msg.command.order.orderId with
      | none =>
        unfold conclusion
        dsimp only
        split_ifs
        · rw [List.flatMap_singleton]
          rfl
        · rfl
      | some resting =>
        -- a resting order has a quantity
        have hpos : resting.remainingQuantity > 0 := by
          have hne := hgood.remaining_ne_zero hf
          grind
        unfold conclusion
        dsimp only
        rw [if_pos hpos, List.flatMap_singleton]
        rfl
    · rw [if_neg hok, if_neg hok, Report.wire, List.flatMap_singleton]
      rfl
  | unknown =>
    unfold executeCommand answer
    rw [ht]
    rfl

theorem answer_of_refused {command : ParsedCommand} (h : b.Reachable) (ht : command.type = .new)
    (hno : ¬ b.book.Accepts command.order) : answer b command =
      [.reject command.order.orderId "DUPLICATE_OR_INVALID_ORDER".toList] := by
  have hok := mt (PoolOrderBook.submitOrder_flag h.good.1 command.order []).mp hno
  unfold answer
  rw [ht]
  dsimp only
  rw [if_neg hok]

/-- The reports account for the limit order `o`, of which `resting` is in the book. -/
structure Accounts (o : Order) (resting : Option Order) (reports : List Report) : Prop where
  quantity : traded (Report.trades reports) + ((Report.acks reports).map (·.2.toNat)).sum =
    o.initialQuantity.toNat
  taker : ∀ t ∈ Report.trades reports, t.takerOrderId = o.orderId
  /-- There is one acknowledgement if the order rests, and it comes last; otherwise there is none. -/
  ack : match resting with
    | none => Report.acks reports = []
    | some r => Report.acks reports = [(o.orderId, r.remainingQuantity)] ∧
      reports.getLast? = some (.ack o.orderId r.remainingQuantity)

theorem trades_conclusion (o : Order) (trades : List Trade) (resting : Option Order) :
    Report.trades (conclusion o trades resting) = [] := by
  unfold conclusion
  split
  · rfl
  · split_ifs <;> rfl

theorem acks_conclusion (o : Order) (trades : List Trade) (resting : Option Order) :
    Report.acks (conclusion o trades resting) =
      (resting.map fun r => (o.orderId, r.remainingQuantity)).toList := by
  unfold conclusion
  split
  · rfl
  · split_ifs <;> rfl

/-- What is left in the book of a submission that was accepted. -/
def Book.remainder (k : Book) (o : Order) : Option Order :=
  if (k.fillOf o).left ≠ 0 ∧ o.type = .limit
  then some { o with remainingQuantity := (k.fillOf o).left } else none

theorem getOrder_accepted (h : b.Reachable) (hacc : b.book.Accepts o)
    (hfit : (b.submitOrder o []).2.2.Fits) :
    (b.submitOrder o []).2.2.getOrder o.orderId = b.book.remainder o := by
  obtain ⟨hinv', -, hbook⟩ := PoolOrderBook.submitOrder_accepted h.good.1 hacc hfit
  rw [hinv'.getOrder_eq, hbook, Book.find?_accept_self hacc, Book.remainder]

theorem remainder_market {k : Book} (hm : o.type = .market) : k.remainder o = none := by
  rw [Book.remainder, if_neg]
  rintro ⟨-, hl⟩
  rw [hm] at hl
  cases hl

/-- All of a limit order is traded or left. -/
theorem traded_add_remainder (k : Book) (hl : o.type = .limit) : traded (k.fillOf o).trades +
    ((k.remainder o).map (·.remainingQuantity.toNat)).getD 0 = o.effective.toNat := by
  rw [← k.traded_fillOf, Book.remainder]
  refine congrArg (_ + ·) ?_
  split_ifs with hrest
  · rfl
  · have hleft : (k.fillOf o).left = 0 := by
      by_contra hne
      exact hrest ⟨hne, hl⟩
    rw [hleft]
    rfl

/-! ### Accepted submissions -/

section Accepted
variable {command : ParsedCommand}

/-- The answer to an accepted submission, by what the book does. -/
theorem answer_of_accepted (h : b.Reachable) (ht : command.type = .new)
    (hacc : b.book.Accepts command.order) (hfit : (b.submitOrder command.order []).2.2.Fits) :
    answer b command = (b.book.fillOf command.order).trades.map .trade ++
      conclusion command.order (b.book.fillOf command.order).trades
        (b.book.remainder command.order) := by
  obtain ⟨-, hts, -⟩ := PoolOrderBook.submitOrder_accepted h.good.1 hacc hfit
  have hok := (PoolOrderBook.submitOrder_flag h.good.1 command.order []).mpr hacc
  unfold answer
  rw [ht]
  dsimp only
  rw [if_pos hok, getOrder_accepted h hacc hfit, hts, List.nil_append]

/-- The answer to an accepted limit order accounts for its quantity. -/
theorem accounts_answer (h : b.Reachable) (ht : command.type = .new)
    (hl : command.order.type = .limit)
    (hq : command.order.effective = command.order.initialQuantity)
    (hacc : b.book.Accepts command.order) (hfit : (b.submitOrder command.order []).2.2.Fits) :
    Accounts command.order (b.book.remainder command.order) (answer b command) := by
  rw [answer_of_accepted h ht hacc hfit]
  have hacks : Report.acks ((b.book.fillOf command.order).trades.map .trade ++
      conclusion command.order (b.book.fillOf command.order).trades
        (b.book.remainder command.order)) =
      ((b.book.remainder command.order).map fun r =>
        (command.order.orderId, r.remainingQuantity)).toList := by
    rw [Report.acks_append, Report.acks_map_trade, acks_conclusion, List.nil_append]
  have htrades : Report.trades ((b.book.fillOf command.order).trades.map .trade ++
      conclusion command.order (b.book.fillOf command.order).trades
        (b.book.remainder command.order)) = (b.book.fillOf command.order).trades := by
    rw [Report.trades_append, Report.trades_map_trade, trades_conclusion, List.append_nil]
  refine ⟨?_, ?_, ?_⟩
  · rw [htrades, hacks, ← hq, ← traded_add_remainder b.book hl]
    cases b.book.remainder command.order with
    | none => rfl
    | some r => simp
  · rw [htrades]
    exact taker_of_mem_fill _ _ _
  · rw [hacks]
    cases b.book.remainder command.order with
    | none => rfl
    | some r => exact ⟨rfl, by rw [conclusion, List.getLast?_concat]⟩

/-- The answer to an accepted submission is a rejection if nothing happened to a market order. -/
theorem rejection_iff (h : b.Reachable) (ht : command.type = .new)
    (hacc : b.book.Accepts command.order) (hfit : (b.submitOrder command.order []).2.2.Fits)
    (id : OrderId) (reason : Text) : answer b command = [.reject id reason] ↔
      ((b.book.fillOf command.order).trades = [] ∧ command.order.type = .market) ∧
        id = command.order.orderId ∧ reason = "NO_LIQUIDITY_FOR_MARKET_ORDER".toList := by
  rw [answer_of_accepted h ht hacc hfit]
  cases (b.book.fillOf command.order).trades with
  | cons t ts =>
    constructor
    · intro hx
      rw [List.map_cons, List.cons_append] at hx
      nomatch (List.cons.inj hx).1
    · rintro ⟨⟨hnil, -⟩, -⟩
      cases hnil
  | nil =>
    rw [List.map_nil, List.nil_append]
    constructor
    · intro hx
      cases hr : b.book.remainder command.order with
      | some r =>
        rw [hr] at hx
        nomatch (List.cons.inj hx).1
      | none =>
        rw [hr] at hx
        unfold conclusion at hx
        dsimp only at hx
        split_ifs at hx with hm
        obtain ⟨hid, hreason⟩ := Report.reject.inj (List.cons.inj hx).1
        exact ⟨hm, hid.symm, hreason.symm⟩
    · rintro ⟨hm, rfl, rfl⟩
      rw [remainder_market hm.2]
      unfold conclusion
      dsimp only
      rw [if_pos hm]

/-- An accepted submission is answered. -/
theorem answer_ne_nil_of_accepted (h : b.Reachable) (ht : command.type = .new)
    (hacc : b.book.Accepts command.order) (hfit : (b.submitOrder command.order []).2.2.Fits) :
    answer b command ≠ [] := by
  rw [answer_of_accepted h ht hacc hfit]
  intro hnil
  obtain ⟨hno, hend⟩ := List.append_eq_nil_iff.mp hnil
  rw [List.map_eq_nil_iff] at hno
  -- nothing is traded, so a limit order rests and a market order is rejected
  cases hkind : command.order.type with
  | limit =>
    have hleft : (b.book.fillOf command.order).left ≠ 0 := by
      rw [Book.fillOf, fill_of_no_trades _ hno]
      exact hacc.effective_ne_zero
    rw [Book.remainder, if_pos ⟨hleft, hkind⟩] at hend
    cases hend
  | market =>
    rw [remainder_market hkind] at hend
    unfold conclusion at hend
    dsimp only at hend
    rw [if_pos ⟨hno, hkind⟩] at hend
    cases hend

end Accepted

/-! ### All commands -/

/-- Every command that the parser knows is answered. -/
theorem answer_ne_nil (h : b.Reachable) (ht : msg.command.type ≠ .unknown)
    (hfit : (executeCommand b msg).2.Fits) : answer b msg.command ≠ [] := by
  cases htype : msg.command.type with
  | unknown => exact absurd htype ht
  | flush =>
    unfold answer
    rw [htype]
    exact List.cons_ne_nil _ _
  | cancel =>
    unfold answer
    rw [htype]
    dsimp only
    split_ifs <;> exact List.cons_ne_nil _ _
  | new =>
    rw [book_of_new htype] at hfit
    by_cases hacc : b.book.Accepts msg.command.order
    · exact answer_ne_nil_of_accepted h htype hacc hfit
    · rw [answer_of_refused h htype hacc]
      exact List.cons_ne_nil _ _

/-- A submission is answered by one rejection if and only if it changes nothing. -/
theorem rejected_iff_new {command : ParsedCommand} (h : b.Reachable) (ht : command.type = .new)
    (hfit : (b.submitOrder command.order []).2.2.Fits) :
    (∃ id reason, answer b command = [.reject id reason]) ↔
      PoolOrderBook.Indistinct b (b.submitOrder command.order []).2.2 := by
  by_cases hacc : b.book.Accepts command.order
  · rw [PoolOrderBook.indistinct_submitOrder_iff h hacc hfit]
    constructor
    · rintro ⟨id, reason, hr⟩
      exact ((rejection_iff h ht hacc hfit id reason).mp hr).1
    · intro hnil
      exact ⟨_, _, (rejection_iff h ht hacc hfit _ _).mpr ⟨hnil, rfl, rfl⟩⟩
  · have hsame : (b.submitOrder command.order []).2.2 = b := by
      rw [PoolOrderBook.submitOrder_eq h.good.1, if_neg hacc]
    rw [answer_of_refused h ht hacc, hsame]
    constructor
    · intro _
      exact (PoolOrderBook.Twin.mk h.good.1 h.good.1 rfl rfl).indistinct
    · intro _
      exact ⟨_, _, rfl⟩

/-- A cancel is answered by one rejection if and only if it changes nothing. -/
theorem rejected_iff_cancel {command : ParsedCommand} (h : b.Reachable)
    (ht : command.type = .cancel) : (∃ id reason, answer b command = [.reject id reason]) ↔
      PoolOrderBook.Indistinct b (b.cancelOrder command.cancelId).2 := by
  rw [PoolOrderBook.indistinct_cancelOrder_iff h]
  unfold answer
  rw [ht]
  dsimp only
  cases (b.cancelOrder command.cancelId).1 with
  | false =>
    constructor
    · intro _
      rfl
    · intro _
      exact ⟨_, _, rfl⟩
  | true =>
    constructor
    · rintro ⟨_, _, hx⟩
      nomatch (List.cons.inj hx).1
    · intro hx
      cases hx

/-- A market order is turned away for want of makers exactly when there are none. -/
theorem noLiquidity_iff {command : ParsedCommand} (h : b.Reachable) (ht : command.type = .new)
    (hm : command.order.type = .market) (hfit : (b.submitOrder command.order []).2.2.Fits) :
    answer b command =
        [.reject command.order.orderId "NO_LIQUIDITY_FOR_MARKET_ORDER".toList] ↔
      (b.submitOrder command.order []).1 = true ∧ b.resting command.order.side.opp = [] := by
  rw [PoolOrderBook.submitOrder_flag h.good.1]
  by_cases hacc : b.book.Accepts command.order
  · rw [rejection_iff h ht hacc hfit, hacc.trades_eq_nil_iff hm]
    constructor
    · rintro ⟨⟨hnil, -⟩, -⟩
      exact ⟨hacc, hnil⟩
    · rintro ⟨-, hnil⟩
      exact ⟨⟨hnil, hm⟩, rfl, rfl⟩
  · rw [answer_of_refused h ht hacc]
    constructor
    · intro hx
      have hreason := (Report.reject.inj (List.cons.inj hx).1).2
      exact absurd hreason (by decide)
    · rintro ⟨hyes, -⟩
      exact absurd hyes hacc

end Answers

/-! ### The response -/

/-- The matching thread turns `msg` into `resp`, pushes it once and goes on; it waits for room. -/
structure PushesOnce (b b' : PoolOrderBook) (msg : IngressMessage) (resp : ResponseMessage) :
    Prop where
  executes : ∀ {n : ℕ} (g : Gateway n) (batch : List IngressMessage) (popped : ℕ), g.book = b →
    g.matching = .execute (msg :: batch) →
      g.matchingStep popped = some { g with book := b', matching := .respond resp batch }
  retries : ∀ {n : ℕ} (g : Gateway n) (batch : List IngressMessage) (popped : ℕ),
    g.matching = .respond resp batch → g.responses.push resp = none →
      g.matchingStep popped = some g
  pushes : ∀ {n : ℕ} (g : Gateway n) (batch : List IngressMessage) (popped : ℕ)
    (responses : Fifo ResponseMessage n), g.matching = .respond resp batch →
      g.responses.push resp = some responses → g.matchingStep popped = some { g with
        responses := responses, processedOrders := g.processedOrders + 1,
        matching := .execute batch }

theorem pushesOnce {b : PoolOrderBook} {msg : IngressMessage} (h : (executeCommand b msg).1 ≠ []) :
    PushesOnce b (executeCommand b msg).2 msg {
      clientFd := msg.clientFd
      sequence := msg.sequence
      payload := (executeCommand b msg).1 } where
  executes g batch popped hb hg := by
    rw [Gateway.matchingStep, hg, hb]
    exact if_neg h
  retries g batch popped hg hpush := by
    rw [Gateway.matchingStep, hg]
    dsimp only
    rw [hpush]
  pushes g batch popped responses hg hpush := by
    rw [Gateway.matchingStep, hg]
    dsimp only
    rw [hpush]

/-- Every command that the parser knows gets one response, with reports that a client can read. They
    account for the quantity of an accepted limit order; they are one rejection exactly when the
    command changed nothing, and a market order is told so when it finds no liquidity. -/
theorem executeCommand_accounts {b : PoolOrderBook} (h : b.Reachable) {msg : IngressMessage}
    {now : Timestamp} {line : Text} (hparse : msg.command = Protocol.parseLine now line)
    (hknown : msg.command.type ≠ .unknown) (hfit : (executeCommand b msg).2.Fits) :
    let payload := (executeCommand b msg).1
    let b' := (executeCommand b msg).2
    let o := msg.command.order
    let accepted := (b.submitOrder o []).1 = true
    PushesOnce b b' msg { clientFd := msg.clientFd, sequence := msg.sequence, payload := payload } ∧
    payload ≠ [] ∧
    ∃ reports, payload = Report.wire reports ∧
      Report.readAll payload = some (reports.map Report.sent) ∧
      (msg.command.type = .new → o.type = .limit → accepted →
        Accounts o (b'.getOrder o.orderId) reports) ∧
      (msg.command.type = .new ∨ msg.command.type = .cancel →
        ((∃ id reason, reports = [.reject id reason]) ↔ PoolOrderBook.Indistinct b b')) ∧
      (msg.command.type = .new → o.type = .market →
        (reports = [.reject o.orderId "NO_LIQUIDITY_FOR_MARKET_ORDER".toList] ↔
          accepted ∧ b.resting o.side.opp = [])) := by
  have hpayload := payload_eq h hfit
  have hne : (executeCommand b msg).1 ≠ [] := by
    rw [hpayload]
    exact Report.wire_ne_nil (answer_ne_nil h hknown hfit)
  refine ⟨pushesOnce hne, hne, answer b msg.command, hpayload, ?_, ?_, ?_, ?_⟩
  · rw [hpayload, Report.readAll_wire (oneLine_of_mem_answer _ _)]
  · intro ht hlimit hok
    rw [book_of_new ht] at hfit ⊢
    have hacc := (PoolOrderBook.submitOrder_flag h.good.1 _ _).mp hok
    rw [getOrder_accepted h hacc hfit]
    refine accounts_answer h ht hlimit ?_ hacc hfit
    rw [hparse, parseLine_effective]
  · rintro (ht | ht)
    · rw [book_of_new ht] at hfit ⊢
      exact rejected_iff_new h ht hfit
    · rw [book_of_cancel ht]
      exact rejected_iff_cancel h ht
  · intro ht hm
    rw [book_of_new ht] at hfit
    exact noLiquidity_iff h ht hm hfit

theorem executeCommand_accounts_close :
    let command := Protocol.parseLine 5 "NEW SELL 8 99 12".toList
    let msg : IngressMessage := { sequence := 9, clientFd := 4, command := command }
    (executeCommand tradingDayClose msg).1 ≠ [] ∧
    ∃ reports, (executeCommand tradingDayClose msg).1 = Report.wire reports ∧
      Accounts command.order ((executeCommand tradingDayClose msg).2.getOrder 8) reports := by
  intro command msg
  obtain ⟨-, hne, reports, hwire, -, haccounts, -⟩ := @executeCommand_accounts tradingDayClose
    tradingDayClose_reachable msg 5 "NEW SELL 8 99 12".toList rfl (by decide) (by decide)
  exact ⟨hne, reports, hwire, haccounts (by decide) (by decide) (by decide)⟩

/-! ### Unique decoding -/

theorem Report.wire_map_sent : ∀ rs : List Report, Report.wire (rs.map Report.sent) = Report.wire rs
  | [] => rfl
  | r :: rs => by
    have hr : r.sent.format = r.format := by cases r <;> rfl
    have ih := wire_map_sent rs
    rw [Report.wire, Report.wire] at ih ⊢
    rw [List.map_cons, List.flatMap_cons, List.flatMap_cons, hr, ih]

theorem newline_notMem_errorMsg (now : Timestamp) (line : Text) :
    '\n' ∉ (Protocol.parseLine now line).errorMsg := by
  have hnew : ∀ tokens, '\n' ∉ (Protocol.parseNew now tokens).errorMsg := by
    intro tokens
    unfold Protocol.parseNew
    repeat' split
    all_goals first
      | (unfold Protocol.error; decide)
      | exact List.not_mem_nil
  have hcancel : ∀ tokens, '\n' ∉ (Protocol.parseCancel tokens).errorMsg := by
    intro tokens
    unfold Protocol.parseCancel
    repeat' split
    all_goals first
      | (unfold Protocol.error; decide)
      | exact List.not_mem_nil
  unfold Protocol.parseLine
  split
  · unfold Protocol.error
    decide
  · split_ifs
    · exact hnew _
    · exact hcancel _
    · exact List.not_mem_nil
    · unfold Protocol.error
      decide

namespace Report

/-- A text that consists of reports on one line each. -/
def IsText (text : Text) : Prop := ∃ reports : List Report, (∀ r ∈ reports, r.OneLine) ∧
  text = wire reports

theorem IsText.nil : IsText [] := ⟨[], List.forall_mem_nil _, rfl⟩

theorem IsText.append {text text' : Text} : IsText text → IsText text' → IsText (text ++ text') := by
  rintro ⟨rs, hrs, rfl⟩ ⟨qs, hqs, rfl⟩
  exact ⟨rs ++ qs, List.forall_mem_append.mpr ⟨hrs, hqs⟩, List.flatMap_append.symm⟩

theorem IsText.format {r : Report} (h : r.OneLine) : IsText r.format :=
  ⟨[r], List.forall_mem_singleton.mpr h, (List.flatMap_singleton ..).symm⟩

theorem IsText.trades (ts : List Trade) : IsText (ts.flatMap Protocol.formatTrade) := by
  refine ⟨ts.map .trade, ?_, ?_⟩
  · intro r hr
    obtain ⟨t, -, rfl⟩ := List.mem_map.mp hr
    trivial
  · rw [wire, List.flatMap_map]
    rfl

theorem IsText.reject (id : OrderId) {reason : Text} (h : '\n' ∉ reason) :
    IsText (Protocol.formatReject id reason) := IsText.format (r := .reject id reason) h

end Report

/-- Whatever the book, a payload is the text of reports on one line each. -/
theorem isText_payload (b : PoolOrderBook) (msg : IngressMessage) :
    Report.IsText (executeCommand b msg).1 := by
  have hnone : Report.IsText (if (b.submitOrder msg.command.order []).2.1 = [] ∧
      msg.command.order.type = .market
      then Protocol.formatReject msg.command.order.orderId "NO_LIQUIDITY_FOR_MARKET_ORDER".toList
      else []) := by
    split_ifs
    · exact .reject _ (by decide)
    · exact .nil
  unfold executeCommand
  split
  · exact Report.IsText.format (r := .info "BOOK_FLUSHED".toList) (show '\n' ∉ _ by decide)
  · dsimp only
    split_ifs
    · exact Report.IsText.format (r := .canceled _) trivial
    · exact .reject _ (by decide)
  · dsimp only
    by_cases hok : (b.submitOrder msg.command.order []).1 = true
    · rw [if_pos hok]
      refine .append (.trades _) ?_
      cases (b.submitOrder msg.command.order []).2.2.getOrder msg.command.order.orderId with
      | none => exact hnone
      | some resting =>
        by_cases hpos : resting.remainingQuantity > 0
        · dsimp only
          rw [if_pos hpos]
          exact Report.IsText.format (r := .ack _ _) trivial
        · dsimp only
          rw [if_neg hpos]
          exact hnone
    · rw [if_neg hok]
      exact .reject _ (by decide)
  · exact .nil

/-- The text of reports decides them, but for the times of trades: a client that splits what it
    receives at newlines and spaces reads them back. And all that the parser and the engine give as
    a reason is on one line. -/
theorem reports_decode_uniquely :
    (∀ rs : List Report, (∀ r ∈ rs, r.OneLine) →
      Report.readAll (Report.wire rs) = some (rs.map Report.sent)) ∧
    (∀ rs qs : List Report, (∀ r ∈ rs, r.OneLine) → (∀ r ∈ qs, r.OneLine) →
      (Report.wire rs = Report.wire qs ↔ rs.map Report.sent = qs.map Report.sent)) ∧
    (∀ (now : Timestamp) (line : Text), '\n' ∉ (Protocol.parseLine now line).errorMsg) ∧
    ∀ (b : PoolOrderBook) (msg : IngressMessage), ∃ reports : List Report,
      (∀ r ∈ reports, r.OneLine) ∧ (executeCommand b msg).1 = Report.wire reports := by
  refine ⟨fun rs hrs => Report.readAll_wire hrs, ?_, newline_notMem_errorMsg, isText_payload⟩
  intro rs qs hrs hqs
  constructor
  · intro h
    have hread := Report.readAll_wire hrs
    rw [h, Report.readAll_wire hqs] at hread
    exact (Option.some.inj hread).symm
  · intro h
    rw [← Report.wire_map_sent rs, h, Report.wire_map_sent]

/-- Two trades that differ in their time only, and an order that rests behind one of them. -/
theorem reports_decode_uniquely_trades :
    Report.readAll (Report.wire [.trade ⟨1, 3, 100, 5, 8, .buy⟩, .ack 3 2]) =
        some [.trade ⟨1, 3, 100, 5, 0, .buy⟩, .ack 3 2] ∧
      Report.wire [.trade ⟨1, 3, 100, 5, 8, .buy⟩] = Report.wire [.trade ⟨1, 3, 100, 5, 9, .buy⟩] ∧
      Report.wire [.ack 3 2, .canceled 1] ≠ Report.wire [.canceled 1, .ack 3 2] ∧
      '\n' ∉ (Protocol.parseLine 0 "MODIFY\n1".toList).errorMsg ∧
      ∃ reports : List Report, (∀ r ∈ reports, r.OneLine) ∧
        (executeCommand (PoolOrderBook.ctor 4) { clientFd := 4, command := { type := .flush } }).1 =
          Report.wire reports := by
  obtain ⟨hread, hinj, herror, hpayload⟩ := reports_decode_uniquely
  refine ⟨hread _ ?_, (hinj _ _ ?_ ?_).mpr rfl, ?_, herror _ _, hpayload _ _⟩
  · simp [Report.OneLine]
  · simp [Report.OneLine]
  · simp [Report.OneLine]
  · rw [Ne, hinj _ _ (by simp [Report.OneLine]) (by simp [Report.OneLine])]
    decide

end Titan
