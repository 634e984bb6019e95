import Titan.Engine.Effort
import Titan.Engine.Rebuild
import Titan.Gateway.Delivery
import Titan.Gateway.Wire

/-! The reports tell the book.

    A follower sees the commands that are executed and the text of their answers. It keeps the resting
    orders in one list, in the order of their acknowledgements, and never compares prices: a trade
    names its maker, an acknowledgement puts an order behind the others. It also checks what it reads.
    The follower always holds what the book holds, and it finds no contradiction. -/

namespace Titan
open Schemes

/-- What is left of a resting order of which the quantity `q` was traded. -/
def Order.after (m : Order) (q : Quantity) : List Order :=
  if q = m.remainingQuantity then []
  else [{ m with remainingQuantity := m.remainingQuantity - q }]

namespace Feed

/-- The maker of a trade is the first order at its price, and it has the quantity. -/
def takeFrom (t : Trade) : List Order → Option (List Order)
  | [] => none
  | m :: ms =>
    if m.level = (t.aggressorSide.opp, t.price) then
      if m.orderId = t.makerOrderId ∧ t.quantity ≠ 0 ∧ t.quantity ≤ m.remainingQuantity
      then some (m.after t.quantity ++ ms) else none
    else (takeFrom t ms).map (m :: ·)

/-- Take note of a report on a command; there is no result if the report cannot be true. -/
def apply (command : ParsedCommand) (os : List Order) : Report → Option (List Order)
  | .trade t =>
    if t.takerOrderId = command.order.orderId ∧ t.aggressorSide = command.order.side
    then takeFrom t os else none
  | .ack id remainingQty =>
    if id = command.order.orderId ∧ remainingQty ≠ 0 ∧ ∀ x ∈ os, x.orderId ≠ id
    then some (os ++ [{ command.order with remainingQuantity := remainingQty }]) else none
  | .canceled id =>
    if id = command.cancelId ∧ ∃ x ∈ os, x.orderId = id
    then some (os.filter fun x => x.orderId ≠ id) else none
  | .reject _ _ => some os
  | .info _ => some []

/-- Read the answer to a command. -/
def follow (os : List Order) (p : IngressMessage × ResponseMessage) : Option (List Order) :=
  (Report.readAll p.2.payload).bind fun reports => reports.foldlM (apply p.1.command) os

section Trades
variable {k : Book} {os : List Order} {o m : Order} {ms : List Order} {q : Quantity}

/-- A trade takes from the first order of its level, and leaves the other levels as they are. -/
theorem takeFrom_spec {t : Trade} (h : shelf Order.level os (t.aggressorSide.opp, t.price) = m :: ms)
    (hid : m.orderId = t.makerOrderId) (hpos : t.quantity ≠ 0)
    (hle : t.quantity ≤ m.remainingQuantity) :
    ∃ os', takeFrom t os = some os' ∧
      shelf Order.level os' (t.aggressorSide.opp, t.price) = m.after t.quantity ++ ms ∧
      ∀ c, c ≠ (t.aggressorSide.opp, t.price) → shelf Order.level os' c = shelf Order.level os c := by
  induction os with
  | nil => cases h
  | cons x xs ih =>
    rw [shelf_cons] at h
    by_cases hx : x.level = (t.aggressorSide.opp, t.price)
    · rw [if_pos hx] at h
      obtain ⟨rfl, hms⟩ := List.cons.inj h
      have hafter : ∀ y ∈ x.after t.quantity, y.level = x.level := by
        unfold Order.after
        split_ifs <;> simp [Order.level]
      refine ⟨x.after t.quantity ++ xs, by rw [takeFrom, if_pos hx, if_pos ⟨hid, hpos, hle⟩], ?_, ?_⟩
      · have hall : (x.after t.quantity).filter
            (fun y => y.level = (t.aggressorSide.opp, t.price)) = x.after t.quantity := by
          rw [List.filter_eq_self]
          intro y hy
          rw [hafter y hy, hx, decide_eq_true rfl]
        rw [shelf, List.filter_append, hall, ← hms, shelf]
      · intro c hc
        have hnone : (x.after t.quantity).filter (fun y => y.level = c) = [] := by
          rw [List.filter_eq_nil_iff]
          intro y hy
          rw [hafter y hy, hx]
          simpa using Ne.symm hc
        rw [shelf, List.filter_append, hnone, shelf_cons, if_neg (by rw [hx]; exact Ne.symm hc)]
        rfl
    · rw [if_neg hx] at h
      obtain ⟨os', hos', hlevel, hothers⟩ := ih h
      refine ⟨x :: os', by rw [takeFrom, if_neg hx, hos', Option.map_some], ?_, fun c hc => ?_⟩
      · rw [shelf_cons, if_neg hx, hlevel]
      · rw [shelf_cons, shelf_cons, hothers c hc]

theorem apply_trade (command : ParsedCommand) (hl : k.Lists os)
    (hmakers : k command.order.side.opp = m :: ms) (hpos : q ≠ 0) (hle : q ≤ m.remainingQuantity) :
    ∃ os', apply command os (Report.trade (command.order.trade m q)).sent = some os' ∧
      (k.setSide command.order.side.opp (m.after q ++ ms)).Lists os' := by
  have hshelf : shelf Order.level os (command.order.side.opp, m.price) =
      m :: ms.filter fun x => x.price = m.price := by
    rw [hl, Book.queueAt, hmakers, List.filter_cons_of_pos (by simp)]
  obtain ⟨os', hos', hlevel, hothers⟩ := takeFrom_spec
    (t := { command.order.trade m q with timestamp := 0 }) hshelf rfl hpos hle
  have hafter : ∀ x ∈ m.after q, x.price = m.price := by
    unfold Order.after
    split_ifs <;> simp
  refine ⟨os', ?_, fun s p => ?_⟩
  · rw [Report.sent, apply, if_pos ⟨rfl, rfl⟩]
    exact hos'
  · rcases command.order.side.eq_or_eq_opp s with rfl | rfl
    · have hne : (command.order.side, p) ≠ (command.order.side.opp, m.price) := by
        intro heq
        exact Side.ne_opp _ (congrArg Prod.fst heq)
      rw [hothers _ hne, hl, Book.queueAt, Book.queueAt, Book.setSide_of_opp]
    · rw [Book.queueAt, Book.setSide_self, List.filter_append]
      by_cases hp : p = m.price
      · rw [hp, List.filter_eq_self.mpr (by simpa using hafter)]
        exact hlevel
      · have hne : (command.order.side.opp, p) ≠ (command.order.side.opp, m.price) := by
          intro heq
          exact hp (congrArg Prod.snd heq)
        have hnone : (m.after q).filter (fun x => x.price = p) = [] := by
          rw [List.filter_eq_nil_iff]
          intro x hx
          simp [hafter x hx, Ne.symm hp]
        rw [hothers _ hne, hl, Book.queueAt, hmakers, hnone, List.nil_append,
          List.filter_cons_of_neg (by simp [Ne.symm hp])]

/-- The trades of a fill, one after the other. -/
theorem apply_fill (command : ParsedCommand) (L : List Order) :
    ∀ (q : Quantity) {k : Book} {os : List Order}, (∀ m ∈ L, m.remainingQuantity ≠ 0) →
      k command.order.side.opp = L → k.Lists os →
      ∃ os', (((fill command.order q L).trades.map Report.trade).map Report.sent).foldlM
          (apply command) os = some os' ∧
        (k.setSide command.order.side.opp (fill command.order q L).rest).Lists os' := by
  induction L with
  | nil =>
    intro q k os _ hmakers hl
    have hsame : k.setSide command.order.side.opp [] = k := by
      rw [← hmakers]
      exact Function.update_eq_self ..
    exact ⟨os, rfl, by rw [fill, hsame]; exact hl⟩
  | cons m ms ih =>
    intro q k os hrem hmakers hl
    obtain ⟨hm, hms⟩ := List.forall_mem_cons.mp hrem
    by_cases hstop : q = 0 ∨ ¬ command.order.Reaches m.price
    · have hsame : k.setSide command.order.side.opp (m :: ms) = k := by
        rw [← hmakers]
        exact Function.update_eq_self ..
      rw [fill_stop _ hstop]
      refine ⟨os, rfl, ?_⟩
      dsimp only
      rw [hsame]
      exact hl
    by_cases hfull : m.remainingQuantity ≤ q
    · -- the maker is filled, and the rest of the trades meets the makers behind it
      obtain ⟨os₁, hos₁, hl₁⟩ := apply_trade command hl hmakers hm (UInt32.le_refl _)
      rw [Order.after, if_pos rfl, List.nil_append] at hl₁
      obtain ⟨os', hos', hl'⟩ := ih (q - m.remainingQuantity) hms (Book.setSide_self ..) hl₁
      rw [fill_full _ hstop hfull]
      refine ⟨os', ?_, ?_⟩
      · rw [List.map_cons, List.map_cons, List.foldlM_cons, hos₁]
        exact hos'
      · rw [Book.setSide, Book.setSide, Function.update_idem] at hl'
        exact hl'
    · have hq : q ≠ 0 := fun hq => hstop (.inl hq)
      have hlt : q < m.remainingQuantity := UInt32.not_le.mp hfull
      obtain ⟨os₁, hos₁, hl₁⟩ := apply_trade command hl hmakers hq (UInt32.le_of_lt hlt)
      have hne : q ≠ m.remainingQuantity := fun heq => hfull (heq ▸ UInt32.le_refl _)
      rw [Order.after, if_neg hne] at hl₁
      rw [fill_part _ hstop hfull]
      refine ⟨os₁, ?_, hl₁⟩
      rw [List.map_singleton, List.map_singleton, List.foldlM_cons, hos₁]
      rfl

end Trades

section Answers
variable {b : PoolOrderBook} {os : List Order} {msg : IngressMessage}

theorem book_of_flush (ht : msg.command.type = .flush) : (executeCommand b msg).2 = b.clear := by
  unfold executeCommand
  rw [ht]

theorem book_of_unknown (ht : msg.command.type = .unknown) : (executeCommand b msg).2 = b := by
  unfold executeCommand
  rw [ht]

/-- A submission that is accepted, told by its trades and what concludes them. -/
theorem apply_accepted (h : b.Reachable) (ht : msg.command.type = .new)
    (hacc : b.book.Accepts msg.command.order)
    (hfit : (b.submitOrder msg.command.order []).2.2.Fits) (hl : b.book.Lists os) :
    ∃ os', ((answer b msg.command).map Report.sent).foldlM (apply msg.command) os = some os' ∧
      (b.book.accept msg.command.order).Lists os' := by
  set o := msg.command.order
  obtain ⟨hinv, hsane⟩ := h.good
  obtain ⟨os₁, hos₁, hl₁⟩ := apply_fill msg.command (b.book o.side.opp) o.effective
    (fun m hm => (hsane.orders _ m hm).2.2.2.2) rfl hl
  rw [answer_of_accepted h ht hacc hfit, List.map_append, List.foldlM_append, Book.fillOf, hos₁]
  have haccept : b.book.accept o = if (b.book.fillOf o).left ≠ 0 ∧ o.type = .limit
      then (b.book.setSide o.side.opp (b.book.fillOf o).rest).rest
        { o with remainingQuantity := (b.book.fillOf o).left }
      else b.book.setSide o.side.opp (b.book.fillOf o).rest := rfl
  by_cases hrest : (b.book.fillOf o).left ≠ 0 ∧ o.type = .limit
  · -- the order comes to rest behind the others of its level
    rw [if_pos hrest] at haccept
    have hsane' := hsane.accept hacc
    rw [haccept] at hsane' ⊢
    have hl' := hl₁.rest (o := { o with remainingQuantity := (b.book.fillOf o).left }) (by
      rw [Book.setSide_of_opp]
      exact hsane.sorted o.side)
    have hids : ∀ x ∈ os₁, x.orderId ≠ o.orderId := by
      have hnodup := ((hl'.perm hsane').map (·.orderId)).nodup_iff.mpr hsane'.ids
      rw [List.map_append, List.nodup_append] at hnodup
      intro x hx
      exact hnodup.2.2 _ (List.mem_map_of_mem hx) _ (by simp)
    refine ⟨_, ?_, hl'⟩
    rw [Book.remainder, if_pos hrest]
    have hack : apply msg.command os₁ (Report.ack o.orderId (b.book.fillOf o).left).sent =
        some (os₁ ++ [{ o with remainingQuantity := (b.book.fillOf o).left }]) :=
      if_pos ⟨rfl, hrest.1, hids⟩
    rw [conclusion, List.map_singleton, Option.bind_eq_bind, Option.bind_some, List.foldlM_cons, hack]
    rfl
  · -- what was left of the order is dropped
    rw [if_neg hrest] at haccept
    rw [haccept]
    refine ⟨os₁, ?_, hl₁⟩
    rw [Book.remainder, if_neg hrest, conclusion]
    split_ifs <;> rfl

/-- The answer to a command tells what the command does to the book. -/
theorem apply_answer (h : b.Reachable) (hfit : (executeCommand b msg).2.Fits)
    (hl : b.book.Lists os) :
    ∃ os', ((answer b msg.command).map Report.sent).foldlM (apply msg.command) os = some os' ∧
      (executeCommand b msg).2.book.Lists os' := by
  obtain ⟨hinv, hsane⟩ := h.good
  cases ht : msg.command.type with
  | flush =>
    rw [answer, ht, book_of_flush ht, (PoolOrderBook.inv_clear hinv).2]
    exact ⟨[], rfl, fun _ _ => rfl⟩
  | cancel =>
    rw [book_of_cancel ht, answer, ht]
    dsimp only
    by_cases hok : (b.cancelOrder msg.command.cancelId).1 = true
    · have hknown : ∃ x ∈ os, x.orderId = msg.command.cancelId := by
        rw [PoolOrderBook.flag_cancelOrder hinv] at hok
        obtain ⟨x, hx⟩ := Option.isSome_iff_exists.mp hok
        rw [Book.find?_eq_some_iff hsane.ids] at hx
        exact ⟨x, (hl.perm hsane).mem_iff.mpr hx.1, hx.2⟩
      have hcanceled : apply msg.command os (Report.canceled msg.command.cancelId).sent =
          some (os.filter fun x => x.orderId ≠ msg.command.cancelId) := if_pos ⟨rfl, hknown⟩
      refine ⟨os.filter fun x => x.orderId ≠ msg.command.cancelId, ?_, fun s p => ?_⟩
      · rw [if_pos hok, List.map_singleton, List.foldlM_cons, hcanceled]
        rfl
      · rw [PoolOrderBook.book_cancelOrder hinv, Book.queueAt_cancel, ← hl, shelf, List.filter_comm]
        rfl
    · rw [if_neg hok, PoolOrderBook.cancelOrder_of_not_found (by simpa using hok)]
      exact ⟨os, rfl, hl⟩
  | new =>
    rw [book_of_new ht] at hfit ⊢
    by_cases hacc : b.book.Accepts msg.command.order
    · rw [(PoolOrderBook.submitOrder_accepted hinv hacc hfit).2.2]
      exact apply_accepted h ht hacc hfit hl
    · have hsame : (b.submitOrder msg.command.order []).2.2 = b := by
        rw [PoolOrderBook.submitOrder_eq hinv, if_neg hacc]
      rw [answer_of_refused h ht hacc, hsame]
      exact ⟨os, rfl, hl⟩
  | unknown =>
    rw [answer, ht, book_of_unknown ht]
    exact ⟨os, rfl, hl⟩

end Answers

/-! ### A run of commands -/

/-- The call on the book that a command makes. -/
def callOf (msg : IngressMessage) : Option Call :=
  match msg.command.type with
  | .flush => some .clear
  | .cancel => some (.cancel msg.command.cancelId)
  | .new => some (.submit msg.command.order [])
  | .unknown => none

theorem book_runCommands (b : PoolOrderBook) (msgs : List IngressMessage) :
    (runCommands b msgs).2 = final PoolOrderBook.call b (msgs.filterMap callOf) := by
  induction msgs generalizing b with
  | nil => rfl
  | cons msg msgs ih =>
    rw [runCommands, ih, List.filterMap_cons]
    cases ht : msg.command.type with
    | flush =>
      rw [book_of_flush ht, callOf, ht]
      rfl
    | unknown => rw [book_of_unknown ht, callOf, ht]
    | cancel =>
      rw [book_of_cancel ht, callOf, ht]
      rfl
    | new =>
      rw [book_of_new ht, callOf, ht]
      rfl

theorem countP_callOf (msgs : List IngressMessage) :
    (msgs.filterMap callOf).countP Call.isSubmit = msgs.countP (·.command.type = .new) := by
  rw [List.countP_filterMap]
  refine List.countP_congr fun msg _ => ?_
  rw [callOf]
  cases msg.command.type <;> simp [Call.isSubmit]

section Runs
variable {n : ℕ} {msgs : List IngressMessage}

/-- Up to `2 ^ 31` submissions fit into the pool. -/
theorem reachable_runCommands (hn : n < 2 ^ 32)
    (hcount : msgs.countP (·.command.type = .new) ≤ 2 ^ 31) :
    (runCommands (.ctor n) msgs).2.Reachable ∧ (runCommands (.ctor n) msgs).2.Fits := by
  rw [← countP_callOf] at hcount
  have hfit := (PoolOrderBook.Paid.of_history hn hcount).1
  have hctor := PoolOrderBook.fits_ctor.mpr hn
  rw [book_runCommands]
  exact ⟨⟨n, _, hctor, hfit, rfl⟩, final_invariant (fun _ _ _ hs => hs) _ hctor hfit⟩

/-- A command that the parser knows has one response. -/
theorem respond_known {b : PoolOrderBook} {msg : IngressMessage} (h : b.Reachable)
    (hknown : msg.command.type ≠ .unknown) (hfit : (executeCommand b msg).2.Fits) :
    msg.respond (executeCommand b msg).1 =
      [{ clientFd := msg.clientFd, sequence := msg.sequence, payload := (executeCommand b msg).1 }] := by
  have hne : (executeCommand b msg).1 ≠ [] := by
    rw [payload_eq h hfit]
    exact Report.wire_ne_nil (answer_ne_nil h hknown hfit)
  rw [IngressMessage.respond, if_neg hne]

/-- What every known command keeps, a run of such commands on a new pool keeps. -/
theorem runCommands_rule {I : List IngressMessage → List ResponseMessage → PoolOrderBook → Prop}
    (hn : n < 2 ^ 32) (hstart : I [] [] (.ctor n))
    (hstep : ∀ {msgs responses b msg}, b.Reachable → (executeCommand b msg).2.Fits →
      msg.command.type ≠ .unknown → I msgs responses b →
      I (msgs ++ [msg]) (responses ++ msg.respond (executeCommand b msg).1) (executeCommand b msg).2)
    (hknown : ∀ msg ∈ msgs, msg.command.type ≠ .unknown)
    (hcount : msgs.countP (·.command.type = .new) ≤ 2 ^ 31) :
    I msgs (runCommands (.ctor n) msgs).1 (runCommands (.ctor n) msgs).2 := by
  induction msgs using List.reverseRecOn with
  | nil => exact hstart
  | append_singleton msgs msg ih =>
    have hcount' : msgs.countP (·.command.type = .new) ≤ 2 ^ 31 := by
      rw [List.countP_append] at hcount
      omega
    have hbefore := ih (fun m hm => hknown m (List.mem_append_left _ hm)) hcount'
    obtain ⟨hreach, -⟩ := reachable_runCommands hn hcount'
    obtain ⟨-, hfit⟩ := reachable_runCommands hn hcount
    rw [runCommands_concat] at hfit ⊢
    exact hstep hreach hfit (hknown msg (by simp)) hbefore

/-- Every command has its response, and a follower of these holds what the book holds. -/
theorem follow_runCommands (hn : n < 2 ^ 32) (hknown : ∀ msg ∈ msgs, msg.command.type ≠ .unknown)
    (hcount : msgs.countP (·.command.type = .new) ≤ 2 ^ 31) :
    List.Forall₂ (fun msg resp => resp.clientFd = msg.clientFd ∧ resp.sequence = msg.sequence)
      msgs (runCommands (.ctor n) msgs).1 ∧
    ∃ os, (msgs.zip (runCommands (.ctor n) msgs).1).foldlM follow [] = some os ∧
      (runCommands (.ctor n) msgs).2.book.Lists os := by
  refine runCommands_rule (I := fun msgs responses b =>
    List.Forall₂ (fun msg resp => resp.clientFd = msg.clientFd ∧ resp.sequence = msg.sequence)
      msgs responses ∧
    ∃ os, (msgs.zip responses).foldlM follow [] = some os ∧ b.book.Lists os)
    hn ?_ ?_ hknown hcount
  · refine ⟨.nil, [], rfl, fun s p => ?_⟩
    rw [(PoolOrderBook.inv_ctor hn).2]
    rfl
  · rintro msgs responses b msg hreach hfit hmsg ⟨hall, os, hos, hl⟩
    obtain ⟨os', hos', hl'⟩ := apply_answer hreach hfit hl
    rw [respond_known hreach hmsg hfit]
    refine ⟨List.rel_append hall (.cons ⟨rfl, rfl⟩ .nil), os', ?_, hl'⟩
    have hfollow : follow os (msg, { clientFd := msg.clientFd, sequence := msg.sequence, payload :=
        (executeCommand b msg).1 }) = some os' := by
      rw [follow]
      dsimp only
      rw [payload_eq hreach hfit, Report.readAll_wire (oneLine_of_mem_answer _ _), Option.bind_some,
        hos']
    rw [List.zip_append hall.length_eq, List.foldlM_append, hos, List.zip_cons_cons,
      List.zip_nil_left, Option.bind_eq_bind, Option.bind_some, List.foldlM_cons, hfollow]
    rfl

end Runs

end Feed

/-! ### The gateway -/

/-- Only commands that the parser knows are admitted. -/
theorem known_of_trace {queueCapacity : UInt64} {initial : PoolOrderBook} {serverFd : Fd}
    {ms : List (Move (Gateway _) Choice)} {g : Gateway _}
    (h : Trace Gateway.step (.start queueCapacity initial serverFd) ms g) :
    ∀ msg ∈ (ms.foldl Log.record {}).admitted, msg.command.type ≠ .unknown := by
  refine h.fold_invariant (I := fun _ log => ∀ msg ∈ Log.admitted log, msg.command.type ≠ .unknown)
    (P := fun _ => True) Log.record ?_ (fun _ hmsg => absurd hmsg List.not_mem_nil) fun _ _ => trivial
  intro g log c g' hlog _ _
  cases c with
  | stop => exact hlog
  | matching popped =>
    simp only [Log.record, Gateway.recordMatching]
    split <;> exact hlog
  | network a =>
    simp only [Log.record, Gateway.admitted_recordNetwork]
    refine List.forall_mem_append.mpr ⟨hlog, fun msg hmsg => ?_⟩
    unfold Gateway.admits at hmsg
    split at hmsg
    · split at hmsg
      · split at hmsg
        · exact absurd hmsg List.not_mem_nil
        · dsimp only at hmsg
          split_ifs at hmsg with hvoid
          · exact absurd hmsg List.not_mem_nil
          · rw [List.mem_singleton.mp hmsg]
            exact fun hx => hvoid (.inr hx)
      · exact absurd hmsg List.not_mem_nil
    · exact absurd hmsg List.not_mem_nil

/-- Only commands that the parser knows are executed. -/
theorem executed_known {queueCapacity : UInt64} {initial : PoolOrderBook} {serverFd : Fd}
    {ms : List (Move (Gateway _) Choice)} {g : Gateway _}
    (h : Trace Gateway.step (.start queueCapacity initial serverFd) ms g) :
    ∀ msg ∈ (ms.foldl Log.record {}).executed, msg.command.type ≠ .unknown := by
  intro msg hmsg
  refine known_of_trace h msg ?_
  rw [(Tally.of_trace h).commands]
  simp only [List.mem_append]
  exact .inl (.inl (.inl hmsg))

/-- Whatever the clients send and however the threads interleave: every command that was executed has
    its response, and who follows the commands with the text of their responses always knows the book,
    order for order. -/
theorem reports_tell_book (queueCapacity : UInt64) {initialCapacity : ℕ}
    (hn : initialCapacity < 2 ^ 32) (serverFd : Fd)
    {ms : List (Move (Gateway _) Choice)} {g : Gateway _}
    (h : Trace Gateway.step (.start queueCapacity (.ctor initialCapacity) serverFd) ms g)
    (hcount : (ms.foldl Log.record {}).executed.countP (·.command.type = .new) ≤ 2 ^ 31) :
    let log := ms.foldl Log.record {}
    let responses := log.handled ++ delivering g.network ++ g.responses.items ++ g.matching.pending
    List.Forall₂ (fun msg resp => resp.clientFd = msg.clientFd ∧ resp.sequence = msg.sequence)
      log.executed responses ∧
    ∃ os, (log.executed.zip responses).foldlM Feed.follow [] = some os ∧
      ∀ s p, os.filter (fun o => o.side = s ∧ o.price = p) = g.book.levelOrders s p := by
  intro log responses
  have htally := Tally.of_trace h
  have hknown : ∀ msg ∈ log.executed, msg.command.type ≠ .unknown := executed_known h
  obtain ⟨hreach, -⟩ := Feed.reachable_runCommands hn hcount
  obtain ⟨hall, os, hos, hl⟩ := Feed.follow_runCommands hn hknown hcount
  have hresponses : (runCommands (.ctor initialCapacity) log.executed).1 = responses :=
    htally.responses
  rw [hresponses] at hall hos
  refine ⟨hall, os, hos, fun s p => ?_⟩
  rw [← htally.book] at hl hreach
  rw [hreach.good.1.shape.levelOrders_eq, ← hl, shelf]
  simp only [Order.level, Prod.mk.injEq]

theorem reports_tell_book_session :
    let ms := moves Gateway.step (Gateway.start 2 (.ctor 1) 3) session
    let g := (play Gateway.step (Gateway.start 2 (.ctor 1) 3) session).get session_plays
    let log := ms.foldl Log.record {}
    let responses := log.handled ++ delivering g.network ++ g.responses.items ++ g.matching.pending
    (log.executed.map (·.command.order.orderId) = [1, 2] ∧
      (g.book.levelOrders .sell 100).map (·.remainingQuantity) = [2]) ∧
    ∃ os, (log.executed.zip responses).foldlM Feed.follow [] = some os ∧
      ∀ s p, os.filter (fun o => o.side = s ∧ o.price = p) = g.book.levelOrders s p := by
  refine ⟨by decide, ?_⟩
  exact (reports_tell_book 2 (by decide) 3 (.of_play (Option.some_get session_plays).symm)
    (by decide)).2

end Titan
