import Titan.Engine.Pool
import Titan.Protocol
import Titan.Queue.Capacity
import Titan.Schemes.Fifo
import Titan.Schemes.Machine

/-! The gateway: a network thread and a matching thread between two queues.

    The network thread is kept as the list of tasks it has still to do, the next one first; a task
    stands for a call, a loop or the rest of a function body, and doing it puts the tasks it leads to
    in its place. Every task is one atomic step. What the operating system answers is chosen from
    outside, as are the thread that moves and the size of a batch. -/

namespace Titan
open Schemes

/-! ### Messages -/

/-- A file descriptor. -/
abbrev Fd := ℕ

structure IngressMessage where
  sequence : UInt64 := 0
  clientFd : Fd
  ingressTimestamp : Timestamp := 0
  command : ParsedCommand := {}
  deriving DecidableEq

structure ResponseMessage where
  clientFd : Fd
  sequence : UInt64 := 0
  payload : Text := []
  deriving DecidableEq

structure ClientConnection where
  fd : Fd
  readBuffer : Text := []
  writeBuffer : Text := []
  deriving DecidableEq

/-- The open connections, each under its own descriptor. -/
structure Clients where
  entries : SortedMap (· < · : Fd → Fd → Prop) ClientConnection
  keyed : ∀ fd client, entries.find? fd = some client → client.fd = fd

namespace Clients

def empty : Clients where
  entries := .empty
  keyed _ _ h := nomatch h

def find? (cs : Clients) (fd : Fd) : Option ClientConnection := cs.entries.find? fd

def insert (cs : Clients) (client : ClientConnection) : Clients where
  entries := cs.entries.insert client.fd client
  keyed fd c h := by
    by_cases hfd : fd = client.fd
    · rw [hfd, SortedMap.find?_insert_self] at h
      cases h
      exact hfd.symm
    · rw [SortedMap.find?_insert_of_ne _ _ hfd] at h
      exact cs.keyed fd c h

def erase (cs : Clients) (fd : Fd) : Clients where
  entries := cs.entries.erase fd
  keyed fd' c h := by
    by_cases hfd : fd' = fd
    · rw [hfd, SortedMap.find?_erase_self] at h
      cases h
    · rw [SortedMap.find?_erase_of_ne _ _ hfd] at h
      exact cs.keyed fd' c h

variable {cs : Clients} {client : ClientConnection} {fd fd' : Fd}

theorem fd_of_find? (h : cs.find? fd = some client) : client.fd = fd := cs.keyed fd client h

theorem find?_insert_self (cs : Clients) (client : ClientConnection) :
    (cs.insert client).find? client.fd = some client := SortedMap.find?_insert_self ..

theorem find?_insert_of_ne (h : fd ≠ client.fd) : (cs.insert client).find? fd = cs.find? fd :=
  SortedMap.find?_insert_of_ne _ _ h _

theorem find?_erase_self (cs : Clients) (fd : Fd) : (cs.erase fd).find? fd = none :=
  SortedMap.find?_erase_self ..

theorem find?_erase_of_ne (h : fd' ≠ fd) : (cs.erase fd).find? fd' = cs.find? fd' :=
  SortedMap.find?_erase_of_ne _ _ h

end Clients

/-- The effect of a command on the book, and the payload of its response. -/
def executeCommand (book : PoolOrderBook) (msg : IngressMessage) : Text × PoolOrderBook :=
  match msg.command.type with
  | .flush => (Protocol.formatInfo "BOOK_FLUSHED".toList, book.clear)
  | .cancel =>
    let (ok, book) := book.cancelOrder msg.command.cancelId
    (if ok then Protocol.formatCanceled msg.command.cancelId
      else Protocol.formatReject msg.command.cancelId "ORDER_NOT_FOUND".toList, book)
  | .new =>
    let order := msg.command.order
    let (ok, trades, book) := book.submitOrder order []
    if ok then
      let payload := trades.flatMap Protocol.formatTrade
      let tail :=
        match book.getOrder order.orderId with
        | some resting =>
          if resting.remainingQuantity > 0
          then Protocol.formatAck order.orderId resting.remainingQuantity
          else if trades = [] ∧ order.type = .market
          then Protocol.formatReject order.orderId "NO_LIQUIDITY_FOR_MARKET_ORDER".toList
          else []
        | none =>
          if trades = [] ∧ order.type = .market
          then Protocol.formatReject order.orderId "NO_LIQUIDITY_FOR_MARKET_ORDER".toList
          else []
      (payload ++ tail, book)
    else (Protocol.formatReject order.orderId "DUPLICATE_OR_INVALID_ORDER".toList, book)
  | .unknown => ([], book)

/-! ### The threads -/

/-- An event of `epoll_wait`; `hangUp` stands for `EPOLLHUP | EPOLLERR`. -/
structure ReadyEvent where
  fd : Fd
  hangUp : Bool := false
  readable : Bool := false
  writable : Bool := false

/-- What the network thread has to do. -/
inductive Task where
  /-- `while (running_.load())` -/
  | whileRunning
  | drainResponses
  /-- One pass of the loop of `drain_response_queue`. -/
  | deliver (resp : ResponseMessage)
  | epollWait
  /-- One pass of the loop of `poll_events`. -/
  | event (e : ReadyEvent)
  /-- The loop of `handle_new_connection`. -/
  | acceptConnections
  | clientRead (fd : Fd)
  /-- The first loop of `handle_client_read`. -/
  | readChunks (fd : Fd)
  /-- Its second loop. -/
  | lines (fd : Fd)
  | processLine (fd : Fd) (line : Text)
  /-- The push of a command, retried until it succeeds. -/
  | pushIngress (msg : IngressMessage)
  | eraseLine (fd : Fd) (count : ℕ)
  | clientWrite (fd : Fd)
  /-- The loop of `flush_client_write_buffer`. -/
  | flush (fd : Fd)
  | closeConnection (fd : Fd)
  | join
  /-- The end of `start`. -/
  | cleanup

/-- Where the matching thread is. -/
inductive Matching.Thread where
  | testRunning
  | testEmpty
  | popBatch
  | execute (batch : List IngressMessage)
  /-- The push of a response, retried until it succeeds. -/
  | respond (resp : ResponseMessage) (batch : List IngressMessage)
  | exited

/-- Two queues of `n` slots, what the threads share, and what each has for itself. -/
structure Gateway (n : ℕ) where
  book : PoolOrderBook
  serverFd : Fd
  running : Bool := true
  nextSequence : UInt64 := 1
  processedOrders : UInt64 := 0
  ingress : Fifo IngressMessage n := .empty
  responses : Fifo ResponseMessage n := .empty
  clients : Clients := .empty
  network : List Task := [.whileRunning]
  matching : Matching.Thread := .testRunning

/-! ### Choices -/

inductive ReadResult where
  | data (bytes : Text)
  | endOfStream
  | wouldBlock
  | failed

inductive WriteResult where
  | sent (count : ℕ)
  | wouldBlock
  | failed

/-- What the network thread is answered when it asks: the operating system, the clocks, and the
    number of messages that `pop_batch` finds. -/
inductive Answer where
  | none
  | popped (count : ℕ)
  | ready (events : List ReadyEvent)
  | accepted (fd : Option Fd)
  | read (r : ReadResult)
  | wrote (r : WriteResult)
  | clock (parsed ingress : Timestamp)

inductive Choice where
  | stop
  | network (a : Answer)
  | matching (popped : ℕ)

def maxEpollEvents : ℕ := 64

def readChunkSize : ℕ := 4096

/-- `pop_batch(…, 64)` -/
def batchSize : ℕ := 64

namespace Gateway
variable {n : ℕ}

def setClient (g : Gateway n) (client : ClientConnection) : Gateway n :=
  { g with clients := g.clients.insert client }

/-- The line up to `pos`, without a `'\r'` at its end. -/
def lineAt (buffer : Text) (pos : ℕ) : Text :=
  let line := buffer.take pos
  if line.getLast? = some '\r' then line.dropLast else line

/-- The message of a command that is not malformed. -/
def message (g : Gateway n) (client : ClientConnection) (cmd : ParsedCommand) (now : Timestamp) :
    IngressMessage where
  sequence := g.nextSequence
  clientFd := client.fd
  ingressTimestamp := now
  command := cmd

/-- Behind a final drain only the clean-up is left: the matching thread has been joined, so that all
    it pushed is visible. -/
def joined : List Task → Bool
  | [.cleanup] => true
  | _ => false

/-- The next task of the network thread. It answers `none` where the thread waits for another answer,
    and where it would use a connection that is gone: the reference dangles and nothing is known of
    what follows. -/
def networkStep (a : Answer) (g : Gateway n) : Option (Gateway n) :=
  match g.network, a with
  | .whileRunning :: rest, .none =>
    if g.running then some { g with
      network := .drainResponses :: .epollWait :: .drainResponses :: .whileRunning :: rest }
    else some { g with network := .join :: .drainResponses :: .cleanup :: rest }
  | .drainResponses :: rest, .popped count =>
    if count ≤ batchSize ∧ count ≤ g.responses.items.length ∧
        (joined rest → count = min batchSize g.responses.items.length) then
      let (batch, responses) := g.responses.popBatch count
      some { g with responses := responses, network := batch.map .deliver ++ rest }
    else none
  | .deliver resp :: rest, .none =>
    match g.clients.find? resp.clientFd with
    | none => some { g with network := rest }
    | some client =>
      let client := { client with writeBuffer := client.writeBuffer ++ resp.payload }
      some { g.setClient client with network := .flush client.fd :: rest }
  | .epollWait :: rest, .ready events =>
    if events.length ≤ maxEpollEvents then some { g with network := events.map .event ++ rest }
    else none
  | .event e :: rest, .none =>
    if e.fd = g.serverFd then some { g with network := .acceptConnections :: rest }
    else if e.hangUp then some { g with network := .closeConnection e.fd :: rest }
    else some { g with
      network := (if e.readable then [.clientRead e.fd] else []) ++
        (if e.writable then [.clientWrite e.fd] else []) ++ rest }
  | .acceptConnections :: rest, .accepted none => some { g with network := rest }
  | .acceptConnections :: _, .accepted (some fd) =>
    -- the new descriptor is none that is open
    if fd ≠ g.serverFd ∧ g.clients.find? fd = none then some (g.setClient { fd := fd }) else none
  | .clientRead fd :: rest, .none =>
    match g.clients.find? fd with
    | none => some { g with network := rest }
    | some _ => some { g with network := .readChunks fd :: rest }
  | .readChunks fd :: rest, .read r =>
    match g.clients.find? fd, r with
    | none, _ => none
    | some client, .data bytes =>
      if bytes ≠ [] ∧ bytes.length ≤ readChunkSize
      then some (g.setClient { client with readBuffer := client.readBuffer ++ bytes }) else none
    | some _, .endOfStream | some _, .failed =>
      some { g with network := .closeConnection fd :: rest }
    | some _, .wouldBlock => some { g with network := .lines fd :: rest }
  | .lines fd :: rest, .none =>
    match g.clients.find? fd with
    | none => none
    | some client =>
      if '\n' ∈ client.readBuffer then
        let pos := client.readBuffer.idxOf '\n'
        some { g with
          network := .processLine fd (lineAt client.readBuffer pos) ::
            .eraseLine fd (pos + 1) :: .lines fd :: rest }
      else some { g with network := rest }
  | .processLine fd line :: rest, .clock parsed ingress =>
    match g.clients.find? fd with
    | none => none
    | some client =>
      if line = [] then some { g with network := rest }
      else
        let cmd := Protocol.parseLine parsed line
        if cmd.type = .unknown then
          let reject := Protocol.formatReject 0 cmd.errorMsg
          some { g.setClient { client with writeBuffer := client.writeBuffer ++ reject } with
            network := .flush fd :: rest }
        else some { g with
          nextSequence := g.nextSequence + 1,
          network := .pushIngress (g.message client cmd ingress) :: rest }
  | .pushIngress msg :: rest, .none =>
    match g.ingress.push msg with
    | none => some g
    | some ingress => some { g with ingress := ingress, network := rest }
  | .eraseLine fd count :: rest, .none =>
    match g.clients.find? fd with
    | none => none
    | some client =>
      some { g.setClient { client with readBuffer := client.readBuffer.drop count } with
        network := rest }
  | .clientWrite fd :: rest, .none =>
    match g.clients.find? fd with
    | none => some { g with network := rest }
    | some _ => some { g with network := .flush fd :: rest }
  | .flush fd :: rest, .none =>
    match g.clients.find? fd with
    | none => none
    | some client => if client.writeBuffer = [] then some { g with network := rest } else none
  | .flush fd :: rest, .wrote r =>
    match g.clients.find? fd with
    | none => none
    | some client =>
      if client.writeBuffer = [] then none
      else match r with
        | .sent count =>
          if count ≤ client.writeBuffer.length
          then some (g.setClient { client with writeBuffer := client.writeBuffer.drop count })
          else none
        | .wouldBlock => some { g with network := rest }
        | .failed => some { g with network := .closeConnection fd :: rest }
  | .closeConnection fd :: rest, .none =>
    some { g with clients := g.clients.erase fd, network := rest }
  | .join :: rest, .none =>
    match g.matching with
    | .exited => some { g with network := rest }
    | _ => none
  | .cleanup :: rest, .none => some { g with clients := .empty, network := rest }
  | _, _ => none

/-- The next step of the matching thread; `popped` is the size of the batch, if it pops one. -/
def matchingStep (popped : ℕ) (g : Gateway n) : Option (Gateway n) :=
  match g.matching with
  | .testRunning => some { g with matching := if g.running then .popBatch else .testEmpty }
  | .testEmpty => some { g with matching := if g.ingress.items = [] then .exited else .popBatch }
  | .popBatch =>
    if popped ≤ batchSize ∧ popped ≤ g.ingress.items.length then
      let (batch, ingress) := g.ingress.popBatch popped
      if popped = 0 then some { g with matching := .testRunning }
      else some { g with ingress := ingress, matching := .execute batch }
    else none
  | .execute [] => some { g with matching := .testRunning }
  | .execute (msg :: batch) =>
    let (payload, book) := executeCommand g.book msg
    if payload = [] then some { g with
      book := book, processedOrders := g.processedOrders + 1, matching := .execute batch }
    else
      let resp := { clientFd := msg.clientFd, sequence := msg.sequence, payload := payload }
      some { g with book := book, matching := .respond resp batch }
  | .respond resp batch =>
    match g.responses.push resp with
    | none => some g
    | some responses => some { g with
      responses := responses, processedOrders := g.processedOrders + 1, matching := .execute batch }
  | .exited => none

def step : Choice → Gateway n → Option (Gateway n)
  | .stop, g => some { g with running := false }
  | .network a, g => networkStep a g
  | .matching popped, g => matchingStep popped g

/-- The gateway when `start` has launched the matching thread. -/
def start (queueCapacity : UInt64) (book : PoolOrderBook) (serverFd : Fd) :
    Gateway (roundUpPowerOfTwo queueCapacity).toNat :=
  { book := book, serverFd := serverFd }

end Gateway

end Titan
