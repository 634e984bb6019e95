import Titan.Engine.Relabel
import Titan.Gateway.Client
import Titan.Gateway.Feed

/-! The commands decide the replies.

    What the gateway answers is a function of the commands and of their order. It depends neither on
    the time stamps nor on the capacities of the queues and of the pool, and the two threads have no
    part in it. So a client that is alone gets the same answers for the same bytes, in whatever
    pieces they arrive. -/

namespace Titan
open Schemes

/-- All keeps its name, and the time is forgotten. -/
def Relabelling.untimed : Relabelling where
  id x := x
  price p := p
  time _ := 0

theorem Relabelling.faithful_untimed : Relabelling.untimed.Faithful Set.univ :=
  ⟨Function.injective_id, fun _ _ _ _ h => h, fun _ _ => Iff.rfl⟩

def Order.untimed (o : Order) : Order := o.relabel .untimed

def ParsedCommand.untimed (command : ParsedCommand) : ParsedCommand :=
  { command with order := command.order.untimed }

def Book.untimed (k : Book) : Book := k.relabel .untimed

theorem Order.pricedIn_univ (o : Order) : o.PricedIn Set.univ := fun _ => trivial

theorem Book.pricedIn_univ (k : Book) : k.PricedIn Set.univ := fun _ _ _ => trivial

/-! ### The book as a server -/

namespace Book
variable {k : Book} {command : ParsedCommand}

/-- The reports on a command. -/
def answer (k : Book) (command : ParsedCommand) : List Report :=
  match command.type with
  | .flush => [.info "BOOK_FLUSHED".toList]
  | .cancel =>
    if (k.find? command.cancelId).isSome then [.canceled command.cancelId]
    else [.reject command.cancelId "ORDER_NOT_FOUND".toList]
  | .new =>
    if k.Accepts command.order then
      (k.fillOf command.order).trades.map .trade ++
        conclusion command.order (k.fillOf command.order).trades (k.remainder command.order)
    else [.reject command.order.orderId "DUPLICATE_OR_INVALID_ORDER".toList]
  | .unknown => []

/-- The book after a command. -/
def after (k : Book) (command : ParsedCommand) : Book :=
  match command.type with
  | .flush => k.clear
  | .cancel => (k.cancel command.cancelId).2
  | .new => (k.submit command.order).2.2
  | .unknown => k

/-- The replies to one command after the other. -/
def replies : Book → List ParsedCommand → List Text
  | _, [] => []
  | k, command :: commands => Report.wire (k.answer command) :: (k.after command).replies commands

theorem replies_append : ∀ (k : Book) (xs ys : List ParsedCommand),
    k.replies (xs ++ ys) = k.replies xs ++ (xs.foldl after k).replies ys
  | _, [], _ => rfl
  | k, x :: xs, ys => congrArg _ (replies_append (k.after x) xs ys)

theorem replies_mono {xs ys : List ParsedCommand} (h : xs <+: ys) (k : Book) :
    k.replies xs <+: k.replies ys := by
  obtain ⟨zs, rfl⟩ := h
  rw [replies_append]
  exact List.prefix_append ..

theorem untimed_accepts (k : Book) (o : Order) : k.untimed.Accepts o.untimed ↔ k.Accepts o :=
  relabel_accepts Relabelling.faithful_untimed o.pricedIn_univ

theorem untimed_fillOf (k : Book) (o : Order) : k.untimed.fillOf o.untimed =
    ⟨(k.fillOf o).trades.map (Trade.relabel .untimed), (k.fillOf o).left,
      (k.fillOf o).rest.map Order.untimed⟩ :=
  relabel_fillOf Relabelling.faithful_untimed o.pricedIn_univ k.pricedIn_univ

theorem untimed_find? (k : Book) (id : OrderId) :
    k.untimed.find? id = (k.find? id).map Order.untimed :=
  find?_relabel Relabelling.faithful_untimed k id

theorem sent_conclusion (o : Order) (trades : List Trade) (resting : Option Order) :
    (conclusion o trades resting).map Report.sent =
      conclusion o.untimed (trades.map (Trade.relabel .untimed)) (resting.map Order.untimed) := by
  cases resting with
  | some r => rfl
  | none =>
    have hcond : trades.map (Trade.relabel .untimed) = [] ∧ o.untimed.type = .market ↔
        trades = [] ∧ o.type = .market := by
      rw [List.map_eq_nil_iff]
      rfl
    rw [Option.map_none, conclusion, conclusion]
    simp only [hcond]
    split_ifs <;> rfl

/-- What is sent of the answer does not depend on the time. -/
theorem untimed_answer (k : Book) (command : ParsedCommand) :
    k.untimed.answer command.untimed = (k.answer command).map Report.sent := by
  have htype : command.untimed.type = command.type := rfl
  cases ht : command.type with
  | flush =>
    rw [answer, answer, htype, ht]
    rfl
  | cancel =>
    have hid : command.untimed.cancelId = command.cancelId := rfl
    rw [answer, answer, htype, ht]
    dsimp only
    rw [hid, untimed_find?, Option.isSome_map]
    split_ifs <;> rfl
  | new =>
    have horder : command.untimed.order = command.order.untimed := rfl
    have hremainder : k.untimed.remainder command.order.untimed =
        (k.remainder command.order).map Order.untimed := by
      have hlimit : command.order.untimed.type = command.order.type := rfl
      rw [remainder, remainder, untimed_fillOf, hlimit]
      split_ifs <;> rfl
    rw [answer, answer, htype, ht]
    dsimp only
    rw [horder, untimed_fillOf, hremainder]
    simp only [untimed_accepts]
    split_ifs
    · rw [List.map_append, sent_conclusion, List.map_map, List.map_map]
      rfl
    · rfl
  | unknown =>
    rw [answer, answer, htype, ht]
    rfl

theorem untimed_after (k : Book) (command : ParsedCommand) :
    k.untimed.after command.untimed = (k.after command).untimed := by
  have hcall : ∀ c : Call, (k.untimed.call (c.relabel .untimed)).2 = (k.call c).2.untimed := fun c => by
    have hpriced : c.PricedIn Set.univ := by
      cases c with
      | submit o _ => exact o.pricedIn_univ
      | cancel _ | clear => trivial
    exact congrArg Prod.snd (relabel_call Relabelling.faithful_untimed k.pricedIn_univ hpriced)
  have htype : command.untimed.type = command.type := rfl
  unfold after
  rw [htype]
  cases command.type with
  | flush => exact hcall .clear
  | cancel => exact hcall (.cancel command.cancelId)
  | new => exact hcall (.submit command.order [])
  | unknown => rfl

theorem wire_sent (reports : List Report) : Report.wire (reports.map .sent) = Report.wire reports := by
  rw [Report.wire, Report.wire, List.flatMap_map]
  refine List.flatMap_congr fun r _ => ?_
  cases r <;> rfl

/-- The time does not matter for the replies. -/
theorem untimed_replies : ∀ (k : Book) (commands : List ParsedCommand),
    k.untimed.replies (commands.map ParsedCommand.untimed) = k.replies commands
  | _, [] => rfl
  | k, command :: commands => by
    rw [List.map_cons, replies, replies, untimed_answer, wire_sent, untimed_after,
      untimed_replies (k.after command) commands]

theorem untimed_run (k : Book) (commands : List ParsedCommand) :
    (commands.map ParsedCommand.untimed).foldl after k.untimed = (commands.foldl after k).untimed := by
  induction commands generalizing k with
  | nil => rfl
  | cons command commands ih =>
    rw [List.map_cons, List.foldl_cons, List.foldl_cons, untimed_after, ih]

end Book

/-! ### The engine as a server -/

section Engine
variable {b : PoolOrderBook} {msg : IngressMessage} {n : ℕ} {msgs : List IngressMessage}

/-- A command is answered as the book says. -/
theorem executeCommand_eq (h : b.Reachable) (hfit : (executeCommand b msg).2.Fits) :
    (executeCommand b msg).1 = Report.wire (b.book.answer msg.command) ∧
      (executeCommand b msg).2.book = b.book.after msg.command := by
  obtain ⟨hinv, -⟩ := h.good
  rw [payload_eq h hfit]
  cases ht : msg.command.type with
  | flush =>
    rw [answer, Book.answer, Book.after, ht, Feed.book_of_flush ht, (PoolOrderBook.inv_clear hinv).2]
    exact ⟨rfl, rfl⟩
  | cancel =>
    rw [book_of_cancel ht, answer, Book.answer, Book.after, ht]
    dsimp only
    rw [PoolOrderBook.flag_cancelOrder hinv, PoolOrderBook.book_cancelOrder hinv]
    exact ⟨rfl, rfl⟩
  | new =>
    rw [book_of_new ht] at hfit ⊢
    rw [Book.answer, Book.after, ht]
    dsimp only
    by_cases hacc : b.book.Accepts msg.command.order
    · rw [if_pos hacc, answer_of_accepted h ht hacc hfit, Book.submit, if_pos hacc]
      exact ⟨rfl, (PoolOrderBook.submitOrder_accepted hinv hacc hfit).2.2⟩
    · rw [if_neg hacc, answer_of_refused h ht hacc, Book.submit, if_neg hacc,
        PoolOrderBook.submitOrder_eq hinv, if_neg hacc]
      exact ⟨rfl, rfl⟩
  | unknown =>
    rw [answer, Book.answer, Book.after, ht, Feed.book_of_unknown ht]
    exact ⟨rfl, rfl⟩

/-- A run of commands is answered as the empty book says. -/
theorem runCommands_eq (hn : n < 2 ^ 32) (hknown : ∀ msg ∈ msgs, msg.command.type ≠ .unknown)
    (hcount : msgs.countP (·.command.type = .new) ≤ 2 ^ 31) :
    (runCommands (.ctor n) msgs).1.map (·.payload) = Book.replies (fun _ => []) (msgs.map (·.command)) ∧
      (runCommands (.ctor n) msgs).2.book = (msgs.map (·.command)).foldl Book.after fun _ => [] := by
  refine Feed.runCommands_rule (I := fun msgs responses b =>
    responses.map (·.payload) = Book.replies (fun _ => []) (msgs.map (·.command)) ∧
    b.book = (msgs.map (·.command)).foldl Book.after fun _ => [])
    hn ⟨rfl, (PoolOrderBook.inv_ctor hn).2⟩ ?_ hknown hcount
  rintro msgs responses b msg hreach hfit hmsg ⟨hreplies, hbook⟩
  obtain ⟨hpayload, hafter⟩ := executeCommand_eq hreach hfit
  rw [Feed.respond_known hreach hmsg hfit, List.map_append, hreplies, List.map_append,
    List.map_singleton, List.map_singleton, Book.replies_append, List.foldl_append, ← hbook, hpayload]
  exact ⟨rfl, hafter⟩

end Engine

/-- Pools that hold the same but for the time show the same but for the time. -/
theorem levelOrders_untimed {b b' : PoolOrderBook} (h : b.Inv) (h' : b'.Inv)
    (hbook : b.book.untimed = b'.book.untimed) (s : Side) (p : Price) :
    (b.levelOrders s p).map Order.untimed = (b'.levelOrders s p).map Order.untimed := by
  have hqueue : ∀ k : Book, (k.queueAt s p).map Order.untimed = k.untimed.queueAt s p := fun k =>
    (Book.queueAt_relabel Relabelling.faithful_untimed k.pricedIn_univ s (Set.mem_univ p)).symm
  rw [h.shape.levelOrders_eq, h'.shape.levelOrders_eq, hqueue, hqueue, hbook]

/-! ### Any clients -/

section Runs
variable {queueCapacity queueCapacity' : UInt64} {n n' : ℕ} {serverFd serverFd' : Fd}
  {ms : List (Move (Gateway _) Choice)} {g : Gateway _}

/-- What a gateway has answered, and its book, as the executed commands say. -/
theorem replies_of_trace (hn : n < 2 ^ 32)
    (h : Trace Gateway.step (.start queueCapacity (.ctor n) serverFd) ms g)
    (hcount : (ms.foldl Log.record {}).executed.countP (·.command.type = .new) ≤ 2 ^ 31) :
    let log := ms.foldl Log.record {}
    (log.handled ++ delivering g.network ++ g.responses.items ++ g.matching.pending).map (·.payload) =
      Book.replies (fun _ => []) (log.executed.map (·.command.untimed)) ∧
    g.book.Inv ∧
    g.book.book.untimed = (log.executed.map (·.command.untimed)).foldl Book.after fun _ => [] := by
  intro log
  have htally := Tally.of_trace h
  have hknown : ∀ msg ∈ log.executed, msg.command.type ≠ .unknown := executed_known h
  obtain ⟨hreplies, hbook⟩ := runCommands_eq hn hknown hcount
  obtain ⟨hreach, -⟩ := Feed.reachable_runCommands hn hcount
  have huntimed : log.executed.map (·.command.untimed) =
      (log.executed.map (·.command)).map ParsedCommand.untimed := by
    rw [List.map_map]
    rfl
  have hempty : (fun _ => [] : Book) = Book.untimed fun _ => [] := rfl
  rw [← htally.book] at hbook hreach
  rw [← htally.responses, hreplies, huntimed, hempty, Book.untimed_replies, Book.untimed_run, hbook]
  exact ⟨rfl, hreach.good.1, rfl⟩

end Runs

/-- Two gateways, with queues and pools of any size, any clients and any interleaving of the threads.
    If, but for the time stamps, one has executed the first of the commands that the other has
    executed, it has given the first of the replies of the other. If both have executed the same
    commands, they have given the same replies, and the same orders rest in the same places. -/
theorem commands_decide_replies (queueCapacity queueCapacity' : UInt64) {n n' : ℕ}
    (hn : n < 2 ^ 32) (hn' : n' < 2 ^ 32) (serverFd serverFd' : Fd)
    {ms : List (Move (Gateway _) Choice)} {g : Gateway _}
    (h : Trace Gateway.step (.start queueCapacity (.ctor n) serverFd) ms g)
    {ms' : List (Move (Gateway _) Choice)} {g' : Gateway _}
    (h' : Trace Gateway.step (.start queueCapacity' (.ctor n') serverFd') ms' g')
    (hcount : (ms'.foldl Log.record {}).executed.countP (·.command.type = .new) ≤ 2 ^ 31)
    (hsame : (ms.foldl Log.record {}).executed.map (·.command.untimed) <+:
      (ms'.foldl Log.record {}).executed.map (·.command.untimed)) :
    let log := ms.foldl Log.record {}
    let log' := ms'.foldl Log.record {}
    let responses := log.handled ++ delivering g.network ++ g.responses.items ++ g.matching.pending
    let responses' :=
      log'.handled ++ delivering g'.network ++ g'.responses.items ++ g'.matching.pending
    responses.map (·.payload) <+: responses'.map (·.payload) ∧
    (log.executed.length = log'.executed.length →
      responses.map (·.payload) = responses'.map (·.payload) ∧
      ∀ s p, (g.book.levelOrders s p).map Order.untimed =
        (g'.book.levelOrders s p).map Order.untimed) := by
  intro log log' responses responses'
  have hcounts : ∀ msgs : List IngressMessage, msgs.countP (·.command.type = .new) =
      (msgs.map (·.command.untimed)).countP (·.type = .new) := fun msgs => by
    rw [List.countP_map]
    rfl
  have hle : log.executed.countP (·.command.type = .new) ≤ 2 ^ 31 := by
    rw [hcounts] at hcount ⊢
    exact hsame.sublist.countP_le.trans hcount
  obtain ⟨hreplies, hinv, hbook⟩ := replies_of_trace hn h hle
  obtain ⟨hreplies', hinv', hbook'⟩ := replies_of_trace hn' h' hcount
  refine ⟨?_, fun hlength => ?_⟩
  · rw [hreplies, hreplies']
    exact Book.replies_mono hsame _
  · have heq : log.executed.map (·.command.untimed) = log'.executed.map (·.command.untimed) :=
      hsame.eq_of_length (by rw [List.length_map, List.length_map, hlength])
    have huntimed : g.book.book.untimed = g'.book.book.untimed := by
      rw [hbook, hbook']
      exact congrArg (List.foldl Book.after _) heq
    refine ⟨?_, levelOrders_untimed hinv hinv' huntimed⟩
    rw [hreplies, hreplies']
    exact congrArg _ heq

/-- The same choices by another clock. -/
def byOtherClock (choices : List Choice) : List Choice :=
  choices.map fun
    | .network (.clock parsed ingress) => .network (.clock (parsed + 70) (ingress + 80))
    | c => c

theorem byOtherClock_session_plays :
    (play Gateway.step (Gateway.start 4 (.ctor 5) 3) (byOtherClock session)).isSome := by
  decide

theorem commands_decide_replies_session :
    let g := (play Gateway.step (Gateway.start 2 (.ctor 1) 3) session).get session_plays
    let g' := (play Gateway.step (Gateway.start 4 (.ctor 5) 3) (byOtherClock session)).get
      byOtherClock_session_plays
    g.book.levelOrders .sell 100 ≠ g'.book.levelOrders .sell 100 ∧
    (g.book.levelOrders .sell 100).map Order.untimed =
      (g'.book.levelOrders .sell 100).map Order.untimed := by
  intro g g'
  refine ⟨by decide, ?_⟩
  exact ((commands_decide_replies 2 4 (by decide) (by decide) 3 3
    (.of_play (Option.some_get session_plays).symm)
    (.of_play (Option.some_get byOtherClock_session_plays).symm) (by decide) (by decide)).2
      (by decide)).2 .sell 100

/-! ### A client that is alone -/

/-- The time at which a line is parsed shows in the time stamp only. -/
theorem untimed_parseLine (now : Timestamp) (line : Text) :
    (Protocol.parseLine now line).untimed = (Protocol.parseLine 0 line).untimed := by
  have hnew : ∀ tokens, (Protocol.parseNew now tokens).untimed =
      (Protocol.parseNew 0 tokens).untimed := by
    intro tokens
    unfold Protocol.parseNew
    repeat' split
    all_goals rfl
  unfold Protocol.parseLine
  split
  · rfl
  · split_ifs
    · exact hnew _
    · rfl
    · rfl
    · rfl

/-- The command of a line, without the time. -/
def lineCommands (line : Text) : List ParsedCommand :=
  (TimedLine.commands (line, 0)).map ParsedCommand.untimed

/-- What a line is answered at once. -/
def lineRejections (line : Text) : List Text := TimedLine.rejections (line, 0)

section Lines
variable (p : TimedLine)

theorem type_parseLine : (Protocol.parseLine p.2 p.1).type = (Protocol.parseLine 0 p.1).type := by
  have htype := congrArg ParsedCommand.type (untimed_parseLine p.2 p.1)
  exact htype

theorem untimed_commands : p.commands.map ParsedCommand.untimed = lineCommands p.1 := by
  have hvoid : p.Void ↔ TimedLine.Void (p.1, 0) := by
    rw [TimedLine.Void, TimedLine.Void, type_parseLine]
  rw [lineCommands, TimedLine.commands, TimedLine.commands]
  simp only [hvoid]
  split_ifs
  · rfl
  · exact congrArg (fun c => [c]) (untimed_parseLine p.2 p.1)

theorem rejections_eq : p.rejections = lineRejections p.1 := by
  have herror : (Protocol.parseLine p.2 p.1).errorMsg = (Protocol.parseLine 0 p.1).errorMsg := by
    have hmsg := congrArg ParsedCommand.errorMsg (untimed_parseLine p.2 p.1)
    exact hmsg
  rw [lineRejections, TimedLine.rejections, TimedLine.rejections, type_parseLine, herror]

theorem length_commands_le : p.commands.length ≤ 1 := by
  rw [TimedLine.commands]
  split_ifs <;> simp

end Lines

/-- The replies to the commands of the lines, without the rejections of malformed lines. -/
def lineReplies (lines : List Text) : List Text :=
  Book.replies (fun _ => []) (lines.flatMap lineCommands)

theorem untimed_flatMap_commands (ps : List TimedLine) :
    (ps.flatMap TimedLine.commands).map ParsedCommand.untimed =
      (ps.map Prod.fst).flatMap lineCommands := by
  rw [List.map_flatMap, List.flatMap_map]
  exact List.flatMap_congr fun p _ => untimed_commands p

theorem flatMap_rejections (ps : List TimedLine) :
    ps.flatMap TimedLine.rejections = (ps.map Prod.fst).flatMap lineRejections := by
  rw [List.flatMap_map]
  exact List.flatMap_congr fun p _ => rejections_eq p

theorem length_flatMap_commands_le (ps : List TimedLine) :
    (ps.flatMap TimedLine.commands).length ≤ ps.length := by
  induction ps with
  | nil => exact Nat.le_refl _
  | cons p ps ih =>
    have hp := length_commands_le p
    rw [List.flatMap_cons, List.length_append, List.length_cons]
    omega

theorem lineReplies_mono {lines lines' : List Text} (h : lines <+: lines') :
    lineReplies lines <+: lineReplies lines' := by
  obtain ⟨more, rfl⟩ := h
  refine Book.replies_mono ?_ _
  rw [List.flatMap_append]
  exact List.prefix_append ..

section Alone
variable {queueCapacity : UInt64} {n : ℕ} {serverFd : Fd}
  {ms : List (Move (Gateway _) Choice)} {g : Gateway _} {fd : Fd} {client : ClientConnection}

/-- The complete lines that came from a descriptor. -/
def linesFrom (m : Minutes) (fd : Fd) : List Text :=
  (frames '\n' (m.intakes fd).received).1.map chomp

/-- What the only client was told. -/
structure Alone {n : ℕ} (g : Gateway n) (m : Minutes) (fd : Fd) (client : ClientConnection) : Prop where
  answers : answersTo m.log fd <+: lineReplies (linesFrom m fd)
  stream : ∃ sent, Interleaved (answersTo m.log fd)
      ((m.dialogues fd).processed.flatMap TimedLine.rejections) sent ∧
    (m.outflows fd).accepted ++ client.writeBuffer = sent.flatten
  idle : g.Idle → answersTo m.log fd = lineReplies (linesFrom m fd) ∧
    (m.dialogues fd).processed.flatMap TimedLine.rejections =
      (linesFrom m fd).flatMap lineRejections ∧
    g.book.Inv ∧
    g.book.book.untimed =
      ((linesFrom m fd).flatMap lineCommands).foldl Book.after fun _ => []

theorem Alone.of_trace (hn : n < 2 ^ 32)
    (h : Trace Gateway.step (.start queueCapacity (.ctor n) serverFd) ms g)
    (honly : (ms.foldl Log.record {}).opened = [fd]) (hopen : g.clients.find? fd = some client)
    (hcount : (linesFrom (ms.foldl Minutes.record {}) fd).length ≤ 2 ^ 31) :
    Alone g (ms.foldl Minutes.record {}) fd client := by
  have hnd : (ms.foldl Log.record {}).opened.Nodup := by
    rw [honly]
    exact List.nodup_singleton fd
  obtain ⟨hlines, hcommands, hanswers, hstream, -, hidle⟩ := Conversation.of_trace h hnd hopen
  have htally := Tally.of_trace h
  set m := ms.foldl Minutes.record {}
  have hlog : m.log = ms.foldl Log.record {} := by
    rw [show m = _ from foldl_minutes ms {}]
  rw [← hlog] at htally honly
  -- all that was admitted came from this connection
  have hfrom : ∀ msg ∈ m.log.admitted, msg.clientFd = fd := by
    intro msg hmsg
    have hopened := htally.origins msg hmsg
    rw [honly] at hopened
    exact List.mem_singleton.mp hopened
  have hadmitted : m.log.admitted.map (·.command) =
      (m.dialogues fd).processed.flatMap TimedLine.commands := by
    rw [← hcommands, commandsFrom, List.filter_eq_self.mpr]
    intro msg hmsg
    exact decide_eq_true (hfrom msg hmsg)
  have hknown : ∀ msg ∈ m.log.admitted, msg.command.type ≠ .unknown := by
    rw [hlog]
    exact known_of_trace h
  have hfew : m.log.admitted.countP (·.command.type = .new) ≤ 2 ^ 31 := by
    have hlength := congrArg List.length hadmitted
    rw [List.length_map] at hlength
    have hle := length_flatMap_commands_le (m.dialogues fd).processed
    have hprocessed := hlines.length_le
    rw [List.length_map] at hprocessed
    exact (List.countP_le_length.trans (hlength.trans_le (hle.trans hprocessed))).trans hcount
  obtain ⟨hreplies, hbook⟩ := runCommands_eq hn hknown hfew
  obtain ⟨hreach, -⟩ := Feed.reachable_runCommands hn hfew
  have huntimed : (m.log.admitted.map (·.command)).map ParsedCommand.untimed =
      ((m.dialogues fd).processed.map Prod.fst).flatMap lineCommands := by
    rw [hadmitted, untimed_flatMap_commands]
  have hempty : (fun _ => [] : Book) = Book.untimed fun _ => [] := rfl
  have hpayloads : payloadsTo (runCommands (.ctor n) m.log.admitted).1 fd =
      lineReplies ((m.dialogues fd).processed.map Prod.fst) := by
    rw [lineReplies, ← huntimed, hempty, Book.untimed_replies, ← hreplies, payloadsTo,
      List.filter_eq_self.mpr]
    intro resp hresp
    obtain ⟨msg, hmsg, hfd⟩ := mem_runCommands hresp
    exact decide_eq_true (hfd.trans (hfrom msg hmsg))
  rw [hpayloads] at hanswers hidle
  refine ⟨hanswers.trans (lineReplies_mono hlines), hstream, fun hi => ?_⟩
  obtain ⟨hprocessed, hanswered⟩ := hidle hi
  obtain ⟨hnet, hingress, -, hbatch, -⟩ := hi
  have hall : m.log.executed = m.log.admitted := by
    rw [htally.commands, hbatch, hingress, hnet]
    simp [pushing]
  have hgbook := htally.book
  rw [hall] at hgbook
  rw [← hgbook] at hbook hreach
  refine ⟨?_, ?_, hreach.good.1, ?_⟩
  · rw [hanswered, hprocessed]
    rfl
  · rw [flatMap_rejections, hprocessed]
    rfl
  · rw [linesFrom, ← hprocessed, ← huntimed, hempty, Book.untimed_run, hbook]

end Alone

/-- Two gateways with one client each that has sent, in whatever pieces, the same bytes or in the
    second case some more. Neither the sizes of the queues and pools nor the turns of the threads
    change what they are answered: one has been given the first of the answers of the other, and when
    both gateways have nothing under way, all answers and rejections are the same, the same orders rest in the
    same places, and if no line was malformed the clients are sent the same bytes. -/
theorem lone_session_determined (queueCapacity queueCapacity' : UInt64) {n n' : ℕ}
    (hn : n < 2 ^ 32) (hn' : n' < 2 ^ 32) (serverFd serverFd' : Fd)
    {ms : List (Move (Gateway _) Choice)} {g : Gateway _}
    (h : Trace Gateway.step (.start queueCapacity (.ctor n) serverFd) ms g)
    {ms' : List (Move (Gateway _) Choice)} {g' : Gateway _}
    (h' : Trace Gateway.step (.start queueCapacity' (.ctor n') serverFd') ms' g')
    {fd fd' : Fd} {client client' : ClientConnection}
    (honly : (ms.foldl Log.record {}).opened = [fd])
    (honly' : (ms'.foldl Log.record {}).opened = [fd'])
    (hopen : g.clients.find? fd = some client) (hopen' : g'.clients.find? fd' = some client')
    (hsame : ((ms.foldl Minutes.record {}).intakes fd).received <+:
      ((ms'.foldl Minutes.record {}).intakes fd').received)
    (hcount : (linesFrom (ms'.foldl Minutes.record {}) fd').length ≤ 2 ^ 31) :
    let m := ms.foldl Minutes.record {}
    let m' := ms'.foldl Minutes.record {}
    let answers := answersTo m.log fd
    let answers' := answersTo m'.log fd'
    let rejections := (m.dialogues fd).processed.flatMap TimedLine.rejections
    let rejections' := (m'.dialogues fd').processed.flatMap TimedLine.rejections
    (answers <+: answers' ∨ answers' <+: answers) ∧
    (g'.Idle → answers <+: answers') ∧
    (g.Idle → g'.Idle → (m.intakes fd).received = (m'.intakes fd').received →
      answers = answers' ∧ rejections = rejections' ∧
      (∀ s p, (g.book.levelOrders s p).map Order.untimed =
        (g'.book.levelOrders s p).map Order.untimed) ∧
      (rejections = [] → (m.outflows fd).accepted ++ client.writeBuffer =
        (m'.outflows fd').accepted ++ client'.writeBuffer)) := by
  intro m m' answers answers' rejections rejections'
  have hlines : linesFrom m fd <+: linesFrom m' fd' := (frames_mono hsame).map chomp
  have halone := Alone.of_trace hn h honly hopen (hlines.length_le.trans hcount)
  have halone' := Alone.of_trace hn' h' honly' hopen' hcount
  have hmono := lineReplies_mono hlines
  refine ⟨?_, fun hidle' => ?_, fun hidle hidle' heq => ?_⟩
  · exact List.prefix_or_prefix_of_prefix (halone.answers.trans hmono) halone'.answers
  · rw [show answers' = _ from (halone'.idle hidle').1]
    exact halone.answers.trans hmono
  · have hsameLines : linesFrom m fd = linesFrom m' fd' := by
      rw [linesFrom, heq, linesFrom]
    obtain ⟨hanswers, hrejections, hinv, hbook⟩ := halone.idle hidle
    obtain ⟨hanswers', hrejections', hinv', hbook'⟩ := halone'.idle hidle'
    have hall : answers = answers' := by
      rw [show answers = _ from hanswers, show answers' = _ from hanswers', hsameLines]
    have hno : rejections = rejections' := by
      rw [show rejections = _ from hrejections, show rejections' = _ from hrejections', hsameLines]
    have huntimed : g.book.book.untimed = g'.book.book.untimed := by
      rw [hbook, hbook', hsameLines]
    refine ⟨hall, hno, levelOrders_untimed hinv hinv' huntimed, fun hnone => ?_⟩
    obtain ⟨sent, hsent, hstream⟩ := halone.stream
    obtain ⟨sent', hsent', hstream'⟩ := halone'.stream
    rw [show List.flatMap _ _ = [] from hnone] at hsent
    rw [show List.flatMap _ _ = [] from hno.symm.trans hnone] at hsent'
    rw [hstream, hstream', hsent.eq_left, hsent'.eq_left]
    exact congrArg List.flatten hall

theorem byOtherClock_typedSession_plays :
    (play Gateway.step (Gateway.start 2 (.ctor 4) 3) (byOtherClock typedSession)).isSome := by
  decide

theorem lone_session_determined_typedSession :
    let m := (moves Gateway.step (.start 1 (.ctor 1) 3) typedSession).foldl Minutes.record {}
    let m' := (moves Gateway.step (.start 2 (.ctor 4) 3) (byOtherClock typedSession)).foldl
      Minutes.record {}
    answersTo m.log 5 = ["ACK 1 2\n".toList] ∧ answersTo m.log 5 = answersTo m'.log 5 := by
  intro m m'
  refine ⟨by decide, ?_⟩
  exact ((lone_session_determined 1 2 (by decide) (by decide) 3 3
    (.of_play (Option.some_get typedSession_plays).symm)
    (.of_play (Option.some_get byOtherClock_typedSession_plays).symm) (by decide) (by decide)
    (Option.some_get (by decide)).symm (Option.some_get (by decide)).symm (by decide)
    (by decide)).2.2 ⟨rfl, rfl, rfl, rfl, rfl⟩ ⟨rfl, rfl, rfl, rfl, rfl⟩ (by decide)).1

end Titan
