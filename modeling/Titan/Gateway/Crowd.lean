import Titan.Commands
import Titan.Gateway.Feed

/-! The order flow of the concurrent gateway test.

    Its clients send limit orders under different ids, buys below and sells above the middle, so none
    of them can trade. However the clients' lines are mixed, every response is the acknowledgement of
    the whole order, which is what the test counts. -/

namespace Titan
open Schemes

/-- The acknowledgement of a whole order. -/
def acknowledgement (msg : IngressMessage) : ResponseMessage where
  clientFd := msg.clientFd
  sequence := msg.sequence
  payload := Protocol.formatAck msg.command.order.orderId msg.command.order.effective

/-! ### Orders that cannot trade -/

/-- On a book of an uncrossed flow the next order of the flow is acknowledged and comes to rest. -/
theorem executeCommand_uncrossed {b : PoolOrderBook} (h : b.Reachable) {os : List Order}
    (hholds : b.book.Holds os) {msg : IngressMessage} (ht : msg.command.type = .new)
    (hos : Uncrossed (os ++ [msg.command.order])) (hfit : (executeCommand b msg).2.Fits) :
    msg.respond (executeCommand b msg).1 = [acknowledgement msg] ∧
      (executeCommand b msg).2.book.Holds (os ++ [msg.command.order]) := by
  have hacc := hholds.accepts hos
  have hfill := hholds.fillOf hos
  have hlimit : msg.command.order.type = .limit := (hos.limit _ (by simp)).1
  have hpayload := payload_eq h hfit
  rw [book_of_new ht] at hfit ⊢
  have hbook := (PoolOrderBook.submitOrder_accepted h.good.1 hacc hfit).2.2
  have hrest := hholds.submit hos
  rw [Book.submit, if_pos hacc, Prod.mk.injEq, Prod.mk.injEq] at hrest
  rw [answer_of_accepted h ht hacc hfit, Book.remainder, hfill] at hpayload
  dsimp only at hpayload
  rw [if_pos ⟨hacc.effective_ne_zero, hlimit⟩, conclusion, List.map_nil, List.nil_append, Report.wire,
    List.flatMap_singleton] at hpayload
  have hne : (executeCommand b msg).1 ≠ [] := by
    rw [hpayload, Report.format_eq]
    simp
  refine ⟨?_, ?_⟩
  · rw [IngressMessage.respond, if_neg hne, hpayload]
    rfl
  · rw [hbook, hrest.2.2]
    exact hholds.rest hos

/-- All orders of an uncrossed flow are acknowledged. -/
theorem runCommands_uncrossed {n : ℕ} (hn : n < 2 ^ 32) {msgs : List IngressMessage}
    (hnew : ∀ msg ∈ msgs, msg.command.type = .new) (hcount : msgs.length ≤ 2 ^ 31)
    (hos : Uncrossed (msgs.map (·.command.order))) :
    (runCommands (.ctor n) msgs).1 = msgs.map acknowledgement ∧
      (runCommands (.ctor n) msgs).2.book.Holds (msgs.map (·.command.order)) := by
  refine Feed.runCommands_rule (I := fun msgs responses b =>
    (∀ msg ∈ msgs, msg.command.type = .new) → Uncrossed (msgs.map (·.command.order)) →
    responses = msgs.map acknowledgement ∧ b.book.Holds (msgs.map (·.command.order)))
    hn ?_ ?_ (fun msg hmsg => by rw [hnew msg hmsg]; decide) (List.countP_le_length.trans hcount)
    hnew hos
  · refine fun _ _ => ⟨rfl, ?_⟩
    rw [(PoolOrderBook.inv_ctor hn).2]
    exact ⟨.empty, fun _ _ => rfl⟩
  · intro msgs responses b msg hreach hfit _ ih hnew hos
    rw [List.map_append, List.map_singleton] at hos
    obtain ⟨hresponses, hholds⟩ := ih (fun m hm => hnew m (List.mem_append_left _ hm)) hos.of_append
    obtain ⟨hrespond, hholds'⟩ := executeCommand_uncrossed hreach hholds (hnew msg (by simp)) hos hfit
    rw [List.map_append, List.map_singleton, List.map_append, List.map_singleton, hresponses]
    exact ⟨congrArg _ hrespond, hholds'⟩

/-! ### The lines of the test -/

/-- The `i`-th order of client `c`: buys and sells take turns, around a middle of 10000. -/
def testOrder (c i : ℕ) (now : Timestamp) : Order where
  orderId := .ofNat ((c + 1) * 1000000 + i)
  price := .ofNat (if i % 2 = 0 then 9900 + i % 50 else 10100 + i % 50)
  initialQuantity := 10
  remainingQuantity := 10
  timestamp := now
  side := if i % 2 = 0 then .buy else .sell

/-- The words of the line that the client sends for it. -/
def testWords (c i : ℕ) : List Text :=
  [if i % 2 = 0 then "BUY".toList else "SELL".toList, decimal ((c + 1) * 1000000 + i),
   decimal (if i % 2 = 0 then 9900 + i % 50 else 10100 + i % 50), "10".toList, "LIMIT".toList]

/-- The line, without its end. -/
def testLine (c i : ℕ) : Text := "NEW".toList ++ (testWords c i).flatMap (' ' :: ·)

section Lines
variable {c i : ℕ}

theorem isWord_decimal (n : ℕ) : IsWord Protocol.isBlank (decimal n) := by
  refine ⟨decimal_ne_nil n, fun x hx => ?_⟩
  have hdigit := isDigit_of_mem_decimal hx
  by_contra hblank
  rw [Bool.not_eq_false, Protocol.isBlank, decide_eq_true_eq] at hblank
  rcases hblank with rfl | rfl | rfl <;> exact absurd hdigit (by decide)

theorem spaced_new {words : List Text} (hwords : ∀ w ∈ words, IsWord Protocol.isBlank w) :
    Spaced Protocol.isBlank ("NEW".toList :: words) ("NEW".toList ++ words.flatMap (' ' :: ·)) := by
  have hnew : IsWord Protocol.isBlank "NEW".toList := by decide
  have hhead : ∀ x ∈ (words.flatMap (' ' :: ·)).head?, Protocol.isBlank x = true := by
    cases words with
    | nil => simp
    | cons w words => simp [Protocol.isBlank]
  exact .cons [] (by simp) hnew hhead (.of_words (by decide) hwords)

theorem isWord_of_mem_testWords (c i : ℕ) : ∀ w ∈ testWords c i, IsWord Protocol.isBlank w := by
  have hside : IsWord Protocol.isBlank (if i % 2 = 0 then "BUY".toList else "SELL".toList) := by
    split_ifs <;> decide
  have hquantity : IsWord Protocol.isBlank "10".toList := by decide
  have htype : IsWord Protocol.isBlank "LIMIT".toList := by decide
  rw [testWords]
  simp only [List.forall_mem_cons]
  exact ⟨hside, isWord_decimal _, isWord_decimal _, hquantity, htype, by simp⟩

/-- The server reads the order that was meant. -/
theorem parse_testLine (hc : c < 2 ^ 32) (hi : i < 1000000) (now : Timestamp) :
    Protocol.parseLine now (testLine c i) = { type := .new, order := testOrder c i now } := by
  have hside : Protocol.parseSide (if i % 2 = 0 then "BUY".toList else "SELL".toList) =
      some (if i % 2 = 0 then Side.buy else .sell) := by
    split_ifs <;> decide
  have hprice : (if i % 2 = 0 then 9900 + i % 50 else 10100 + i % 50) < 2 ^ 64 := by
    split_ifs <;> omega
  have hquantity : Protocol.parseNum (2 ^ 32) "10".toList = some 10 := by decide
  rw [testLine, Protocol.parseLine_new (spaced_new (isWord_of_mem_testWords c i)), testWords,
    Protocol.parseNew_of hside (parseNum_decimal (by omega)) (parseNum_decimal hprice) hquantity
      (by omega) (by decide)]
  rfl

theorem toNat_testOrder_id (hc : c < 2 ^ 32) (hi : i < 1000000) (now : Timestamp) :
    (testOrder c i now).orderId.toNat = (c + 1) * 1000000 + i := by
  have hlt : (c + 1) * 1000000 + i < 2 ^ 64 := by omega
  exact UInt64.toNat_ofNat_of_lt' hlt

theorem toNat_testOrder_price (c i : ℕ) (now : Timestamp) : (testOrder c i now).price.toNat =
    if i % 2 = 0 then 9900 + i % 50 else 10100 + i % 50 := by
  have hlt : (if i % 2 = 0 then 9900 + i % 50 else 10100 + i % 50) < 2 ^ 64 := by
    split_ifs <;> omega
  exact UInt64.toNat_ofNat_of_lt' hlt

/-- The orders of the test cannot trade, whatever their mixture. -/
theorem uncrossed_test {sent : List (ℕ × ℕ)} {os : List Order} (hsent : sent.Nodup)
    (hrange : ∀ p ∈ sent, p.1 < 2 ^ 32 ∧ p.2 < 1000000)
    (hos : List.Forall₂ (fun o p => ∃ now, o = testOrder p.1 p.2 now) os sent) : Uncrossed os := by
  have hmem : ∀ o ∈ os, ∃ p ∈ sent, ∃ now, o = testOrder p.1 p.2 now := fun o ho =>
    exists_related hos ho
  refine ⟨?_, ?_, ?_⟩
  · have hids : os.map (·.orderId) = sent.map fun p => (testOrder p.1 p.2 0).orderId := by
      clear hsent hrange hmem
      induction hos with
      | nil => rfl
      | cons hp _ ih =>
        obtain ⟨now, rfl⟩ := hp
        rw [List.map_cons, List.map_cons, ih]
        rfl
    rw [hids]
    refine List.Nodup.map_on ?_ hsent
    rintro ⟨c, i⟩ hp ⟨c', i'⟩ hp' heq
    have hnat := congrArg UInt64.toNat heq
    rw [toNat_testOrder_id (hrange _ hp).1 (hrange _ hp).2,
      toNat_testOrder_id (hrange _ hp').1 (hrange _ hp').2] at hnat
    have hi := (hrange _ hp).2
    have hi' := (hrange _ hp').2
    simp only at hnat hi hi'
    rw [Prod.mk.injEq]
    omega
  · intro o ho
    obtain ⟨p, -, now, rfl⟩ := hmem o ho
    have hprice := toNat_testOrder_price p.1 p.2 now
    refine ⟨rfl, ?_, show (10 : Quantity) ≠ 0 by decide⟩
    intro hzero
    rw [hzero, UInt64.toNat_zero] at hprice
    split_ifs at hprice <;> omega
  · intro x hx y hy hbuy hsell
    obtain ⟨p, -, now, rfl⟩ := hmem x hx
    obtain ⟨p', -, now', rfl⟩ := hmem y hy
    have heven : p.2 % 2 = 0 := by
      by_contra hodd
      rw [testOrder, if_neg hodd, if_neg hodd] at hbuy
      cases hbuy
    have hodd : ¬ p'.2 % 2 = 0 := by
      intro heven'
      rw [testOrder, if_pos heven', if_pos heven'] at hsell
      cases hsell
    rw [UInt64.lt_iff_toNat_lt, toNat_testOrder_price, toNat_testOrder_price, if_pos heven, if_neg hodd]
    omega

/-- What the server makes of a flow of lines of the test. -/
theorem commands_of_testLines {sent : List (ℕ × ℕ)} {msgs : List IngressMessage}
    (hrange : ∀ p ∈ sent, p.1 < 2 ^ 32 ∧ p.2 < 1000000)
    (hlines : List.Forall₂ (fun msg p => ∃ now,
      msg.command = Protocol.parseLine now (testLine p.1 p.2)) msgs sent) :
    List.Forall₂ (fun msg p => ∃ now,
      msg.command = { type := .new, order := testOrder p.1 p.2 now }) msgs sent := by
  induction hlines with
  | nil => exact .nil
  | @cons msg p msgs sent hline _ ih =>
    obtain ⟨hp, hrange⟩ := List.forall_mem_cons.mp hrange
    obtain ⟨now, hline⟩ := hline
    exact .cons ⟨now, hline.trans (parse_testLine hp.1 hp.2 now)⟩ (ih hrange)

theorem payloads_of_testOrders {sent : List (ℕ × ℕ)} {msgs : List IngressMessage}
    (hparsed : List.Forall₂ (fun msg p => ∃ now,
      msg.command = { type := .new, order := testOrder p.1 p.2 now }) msgs sent) :
    msgs.map (fun msg => (acknowledgement msg).payload) =
      sent.map fun p => Protocol.formatAck (.ofNat ((p.1 + 1) * 1000000 + p.2)) 10 := by
  induction hparsed with
  | nil => rfl
  | cons hmsg _ ih =>
    obtain ⟨now, hmsg⟩ := hmsg
    rw [List.map_cons, List.map_cons, ih, acknowledgement, hmsg]
    rfl

end Lines

/-- In every run of the gateway in which what was executed are lines of the test, each sent once, by
    any number of clients and mixed in any way: every response is the acknowledgement of the whole
    order, and every open connection was handed the acknowledgements of its own orders, in order and
    as far as it was answered. -/
theorem concurrent_clients_acknowledged (queueCapacity : UInt64) {initialCapacity : ℕ}
    (hn : initialCapacity < 2 ^ 32) (serverFd : Fd)
    {ms : List (Move (Gateway _) Choice)} {g : Gateway _}
    (h : Trace Gateway.step (.start queueCapacity (.ctor initialCapacity) serverFd) ms g)
    {sent : List (ℕ × ℕ)} (hsent : sent.Nodup)
    (hrange : ∀ p ∈ sent, p.1 < 2 ^ 32 ∧ p.2 < 1000000) (hcount : sent.length ≤ 2 ^ 31)
    (hlines : List.Forall₂ (fun msg p => ∃ now,
        msg.command = Protocol.parseLine now (testLine p.1 p.2))
      (ms.foldl Log.record {}).executed sent) :
    let log := ms.foldl Log.record {}
    let responses := log.handled ++ delivering g.network ++ g.responses.items ++ g.matching.pending
    responses = log.executed.map acknowledgement ∧
    responses.map (·.payload) =
      sent.map (fun p => Protocol.formatAck (.ofNat ((p.1 + 1) * 1000000 + p.2)) 10) ∧
    (log.opened.Nodup → ∀ fd, g.clients.find? fd ≠ none → log.delivered.filter (·.clientFd = fd) <+:
      (log.executed.filter (·.clientFd = fd)).map acknowledgement) := by
  intro log responses
  have htally := Tally.of_trace h
  have hparsed := commands_of_testLines hrange hlines
  have hos : Uncrossed (log.executed.map (·.command.order)) :=
    uncrossed_test hsent hrange (List.forall₂_map_left_iff.mpr (hparsed.imp fun _ _ hmsg => by
      obtain ⟨now, hmsg⟩ := hmsg
      exact ⟨now, by rw [hmsg]⟩))
  have hnew : ∀ msg ∈ log.executed, msg.command.type = .new := by
    intro msg hmsg
    obtain ⟨p, -, now, hcommand⟩ := exists_related hparsed hmsg
    rw [hcommand]
  have hcount' : log.executed.length ≤ 2 ^ 31 := by
    rw [hparsed.length_eq]
    exact hcount
  have hresponses : responses = log.executed.map acknowledgement :=
    htally.responses.symm.trans (runCommands_uncrossed hn hnew hcount' hos).1
  refine ⟨hresponses, ?_, fun hnodup fd hfd => ?_⟩
  · rw [hresponses, List.map_map]
    exact payloads_of_testOrders hparsed
  · have hfilter : (log.executed.filter (·.clientFd = fd)).map acknowledgement =
        responses.filter (·.clientFd = fd) := by
      rw [hresponses, List.filter_map]
      rfl
    rw [hfilter, htally.delivered hnodup fd hfd]
    refine List.IsPrefix.filter _ ?_
    exact ⟨delivering g.network ++ g.responses.items ++ g.matching.pending, by
      simp only [responses, log, List.append_assoc]⟩

/-- The session of one client, which sends its first two orders. -/
def crowdSession : List Choice :=
  session.map fun
    | .network (.read (.data _)) => .network (.read (.data
        "NEW BUY 1000000 9900 10 LIMIT\nNEW SELL 1000001 10101 10 LIMIT\n".toList))
    | .network (.wrote (.sent _)) => .network (.wrote (.sent "ACK 1000000 10\n".length))
    | c => c

theorem crowdSession_plays :
    (play Gateway.step (Gateway.start 2 (.ctor 1) 3) crowdSession).isSome := by
  decide

theorem concurrent_clients_acknowledged_crowdSession :
    let ms := moves Gateway.step (Gateway.start 2 (.ctor 1) 3) crowdSession
    let g := (play Gateway.step (Gateway.start 2 (.ctor 1) 3) crowdSession).get crowdSession_plays
    let log := ms.foldl Log.record {}
    let responses := log.handled ++ delivering g.network ++ g.responses.items ++ g.matching.pending
    responses.map (·.payload) = [Protocol.formatAck 1000000 10, Protocol.formatAck 1000001 10] ∧
    log.delivered.filter (·.clientFd = 5) <+:
      (log.executed.filter (·.clientFd = 5)).map acknowledgement := by
  have hsent : [(0, 0), (0, 1)].Nodup := by decide
  have h := concurrent_clients_acknowledged 2 (by decide) 3
    (.of_play (Option.some_get crowdSession_plays).symm) hsent (by decide) (by decide)
    (.cons ⟨1, Eq.trans (by decide) (parse_testLine (by decide) (by decide) 1).symm⟩
      (.cons ⟨2, Eq.trans (by decide) (parse_testLine (by decide) (by decide) 2).symm⟩ .nil))
  exact ⟨h.2.1, h.2.2 (by decide) 5 (by decide)⟩

end Titan
