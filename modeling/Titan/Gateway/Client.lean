import Titan.Gateway.Conversation
import Mathlib.Data.List.DropRight

/-! The interactive client, and a session of it with the server.

    One thread of the client sends what is typed, a command a line; the other one prints what it
    receives, line by line. Between the two programs lie two byte streams, cut anywhere. -/

namespace Titan
open Schemes

namespace Client

/-! ### UTF-8 -/

/-- `str.encode("utf-8")`, its bytes as the characters below 256. -/
def encode (s : Text) : Text :=
  (s.flatMap String.utf8EncodeChar).map fun byte => Char.ofNat byte.toNat

/-- `bytes.decode("utf-8")`; `none` is a `UnicodeDecodeError`. -/
def decode (data : Text) : Option Text :=
  ((data.map fun c => c.toNat.toUInt8).toByteArray.utf8Decode?).map Array.toList

/-- All characters are in the seven-bit range. -/
def IsAscii (text : Text) : Prop := ∀ c ∈ text, c.toNat < 128

theorem toNat_ofNat_byte (byte : UInt8) : (Char.ofNat byte.toNat).toNat = byte.toNat := by
  have hlt := byte.toNat_lt
  have hvalid : byte.toNat.isValidChar := .inl (by omega)
  rw [Char.ofNat, dif_pos hvalid]
  rfl

/-- The bytes of a character beyond the seven-bit range are beyond it. -/
theorem le_of_mem_utf8EncodeChar {c : Char} (hc : 128 ≤ c.toNat) :
    ∀ byte ∈ String.utf8EncodeChar c, 128 ≤ byte.toNat := by
  have hval : c.val.toNat = c.toNat := rfl
  unfold String.utf8EncodeChar
  dsimp only
  rw [hval, if_neg (by omega)]
  split_ifs <;> simp only [List.forall_mem_cons, UInt8.toNat_ofNat'] <;>
    refine ⟨by omega, ?_⟩ <;> simp <;> omega

theorem utf8EncodeChar_ascii {c : Char} (hc : c.toNat < 128) :
    String.utf8EncodeChar c = [c.toNat.toUInt8] := by
  have hval : c.val.toNat = c.toNat := rfl
  unfold String.utf8EncodeChar
  dsimp only
  rw [hval, if_pos (by omega)]

/-- A byte of the seven-bit range stands for the character that it encodes. -/
theorem mem_encode_of_lt {s : Text} {c : Char} (h : c ∈ encode s) (hc : c.toNat < 128) : c ∈ s := by
  obtain ⟨byte, hbyte, rfl⟩ := List.mem_map.mp h
  obtain ⟨x, hx, hbx⟩ := List.mem_flatMap.mp hbyte
  rw [toNat_ofNat_byte] at hc
  by_cases hascii : x.toNat < 128
  · rw [utf8EncodeChar_ascii hascii, List.mem_singleton] at hbx
    have hnat : byte.toNat = x.toNat := by
      rw [hbx, Nat.toUInt8, UInt8.toNat_ofNat']
      omega
    rw [hnat, Char.ofNat_toNat]
    exact hx
  · have hle := le_of_mem_utf8EncodeChar (by omega) byte hbx
    omega

theorem decode_of_ascii {text : Text} (h : IsAscii text) : decode text = some text := by
  have hbytes : text.map (fun c => c.toNat.toUInt8) = text.flatMap String.utf8EncodeChar := by
    induction text with
    | nil => rfl
    | cons c cs ih =>
      obtain ⟨hc, hcs⟩ := List.forall_mem_cons.mp h
      rw [List.map_cons, List.flatMap_cons, utf8EncodeChar_ascii hc, ih hcs]
      rfl
  have hdecode : text.utf8Encode.utf8Decode? = some text.toArray := List.utf8Decode?_utf8Encode
  rw [List.utf8Encode, ← hbytes] at hdecode
  rw [decode, hdecode]
  rfl

/-! ### What is typed -/

/-- The characters that `str.strip` takes off: those that `str.isspace` holds of. -/
def isSpace (c : Char) : Bool :=
  c.toNat ∈ [9, 10, 11, 12, 13, 28, 29, 30, 31, 32, 0x85, 0xa0, 0x1680, 0x2028, 0x2029, 0x202f,
    0x205f, 0x3000] ∨ (0x2000 ≤ c.toNat ∧ c.toNat ≤ 0x200a)

def strip (s : Text) : Text := (s.dropWhile isSpace).rdropWhile isSpace

/-- `cmd.lower() in ("quit", "exit")` -/
def quits (cmd : Text) : Bool :=
  cmd.map Char.toLower = "quit".toList ∨ cmd.map Char.toLower = "exit".toList

/-- The commands that the loop of `main` sends of what is typed, until the input ends or the user
    quits. -/
def commands : List Text → List Text
  | [] => []
  | typed :: rest =>
    let cmd := strip typed
    if cmd = [] then commands rest
    else if quits cmd then []
    else cmd :: commands rest

/-- What it hands to `sendall`. -/
def sendsOf (typed : List Text) : Text :=
  (commands typed).flatMap fun cmd => encode (cmd ++ "\n".toList)

theorem encode_append (s t : Text) : encode (s ++ t) = encode s ++ encode t := by
  simp [encode]

theorem mem_commands {typed : List Text} {cmd : Text} (h : cmd ∈ commands typed) :
    ∃ line ∈ typed, cmd = strip line ∧ cmd ≠ [] := by
  induction typed with
  | nil => cases h
  | cons line rest ih =>
    have hrest : cmd ∈ commands rest → ∃ l ∈ line :: rest, cmd = strip l ∧ cmd ≠ [] := by
      intro h
      obtain ⟨l, hl, hcmd⟩ := ih h
      exact ⟨l, List.mem_cons_of_mem _ hl, hcmd⟩
    rw [commands] at h
    split_ifs at h with hempty
    · exact hrest h
    · cases h
    · rcases List.mem_cons.mp h with rfl | h
      · exact ⟨line, List.mem_cons_self, rfl, hempty⟩
      · exact hrest h

theorem subset_strip (s : Text) : strip s ⊆ s := by
  intro c hc
  have hback : c ∈ s.dropWhile isSpace := (List.rdropWhile_prefix _ _).subset hc
  exact (List.dropWhile_suffix _).subset hback

/-- A command keeps its end: it has no carriage return there to take off. -/
theorem chomp_encode {line : Text} (h : strip line ≠ []) :
    chomp (encode (strip line)) = encode (strip line) := by
  have hlast : ¬ isSpace ((strip line).getLast h) := List.rdropWhile_last_not _ _ h
  have hsplit := List.dropLast_append_getLast h
  set x := (strip line).getLast h
  rw [chomp, if_neg]
  intro hcr
  rw [← hsplit, encode_append] at hcr
  have hx : encode [x] ≠ [] := by
    simp [encode]
  rw [List.getLast?_append_of_ne_nil _ hx] at hcr
  have hmem : '\r' ∈ [x] := mem_encode_of_lt (List.mem_of_getLast? hcr) (by decide)
  rw [← List.mem_singleton.mp hmem] at hlast
  exact hlast (by decide)

/-- What the server reads of what was typed: the commands, each on a line. -/
theorem frames_sendsOf {typed : List Text} (h : ∀ line ∈ typed, '\n' ∉ line) :
    frames '\n' (sendsOf typed) = ((commands typed).map encode, []) := by
  have hnewline : encode "\n".toList = ['\n'] := by decide
  have hfree : ∀ f ∈ (commands typed).map encode, '\n' ∉ f := by
    intro f hf hmem
    obtain ⟨cmd, hcmd, rfl⟩ := List.mem_map.mp hf
    obtain ⟨line, hline, rfl, -⟩ := mem_commands hcmd
    exact h line hline (subset_strip line (mem_encode_of_lt hmem (by decide)))
  have hsends : sendsOf typed = ((commands typed).map encode).flatMap (· ++ ['\n']) ++ [] := by
    rw [sendsOf, List.append_nil, List.flatMap_map]
    simp only [encode_append, hnewline]
  rw [hsends, frames_append [] hfree]
  simp [frames]

/-- The server takes nothing off the commands. -/
theorem chomp_commands (typed : List Text) :
    ((commands typed).map encode).map chomp = (commands typed).map encode := by
  rw [List.map_map]
  refine List.map_congr_left fun cmd hcmd => ?_
  obtain ⟨line, -, rfl, hne⟩ := mem_commands hcmd
  exact chomp_encode hne

/-! ### What is received -/

/-- The thread that receives: what it has not printed yet, the lines that it printed, and whether its
    loop still runs. -/
structure Receiver where
  buffer : Text := []
  printed : List Text := []
  running : Bool := true
  deriving DecidableEq

/-- `while "\n" in buffer: line, buffer = buffer.split("\n", 1)` -/
def splitStep (s : Text × List Text) : Option (Text × List Text) :=
  if '\n' ∈ s.1
  then some ((s.1.dropWhile (· ≠ '\n')).drop 1, s.2 ++ [s.1.takeWhile (· ≠ '\n')])
  else none

/-- One pass of the loop of `receive_messages`; `recv` returned `data`, nothing at the end of the
    stream. -/
def Receiver.receive (r : Receiver) (data : Text) : Receiver :=
  if ¬ r.running then r
  else if data = [] then { r with running := false }
  else
    match decode data with
    | none => { r with running := false }
    | some text =>
      let s := loop splitStep (r.buffer ++ text).length (r.buffer ++ text, r.printed)
      { r with buffer := s.1, printed := s.2 }

def receiveMessages (chunks : List Text) : Receiver := chunks.foldl Receiver.receive {}

/-- The loop prints the frames of the buffer, and keeps what comes after them. -/
theorem loop_splitStep (n : ℕ) (buffer : Text) (printed : List Text) (hn : buffer.length ≤ n) :
    loop splitStep n (buffer, printed) =
      ((frames '\n' buffer).2, printed ++ (frames '\n' buffer).1) := by
  induction n generalizing buffer printed with
  | zero =>
    obtain rfl : buffer = [] := List.length_eq_zero_iff.mp (by omega)
    simp [loop, frames]
  | succ n ih =>
    rw [loop]
    by_cases hmem : '\n' ∈ buffer
    · obtain ⟨line, rest, rfl, hline⟩ := List.eq_append_cons_of_mem hmem
      have hall : ∀ c ∈ line, decide (c ≠ '\n') = true := by
        intro c hc
        rw [decide_eq_true_eq]
        rintro rfl
        exact hline hc
      have hstep : splitStep (line ++ '\n' :: rest, printed) = some (rest, printed ++ [line]) := by
        rw [splitStep, if_pos hmem]
        dsimp only
        rw [List.takeWhile_append_of_pos hall, List.dropWhile_append_of_pos hall]
        simp
      rw [List.length_append, List.length_cons] at hn
      rw [hstep]
      dsimp only
      rw [ih rest _ (by omega), frames_cons hline, List.append_assoc]
      rfl
    · have hstep : splitStep (buffer, printed) = none := if_neg hmem
      rw [hstep, frames_of_notMem hmem]
      simp

/-- Whatever the chunks, a stream of seven-bit text is printed frame by frame. -/
theorem receiveMessages_eq {chunks : List Text} (hchunks : ∀ chunk ∈ chunks, chunk ≠ [])
    (hascii : IsAscii chunks.flatten) : receiveMessages chunks =
      ⟨(frames '\n' chunks.flatten).2, (frames '\n' chunks.flatten).1, true⟩ := by
  induction chunks using List.reverseRecOn with
  | nil => rfl
  | append_singleton chunks chunk ih =>
    rw [List.flatten_append, List.flatten_singleton] at hascii ⊢
    have hold := ih (fun c hc => hchunks c (List.mem_append_left _ hc)) fun c hc =>
      hascii c (List.mem_append_left _ hc)
    have hdecode : decode chunk = some chunk :=
      decode_of_ascii fun c hc => hascii c (List.mem_append_right _ hc)
    have hne : chunk ≠ [] := hchunks chunk (by simp)
    rw [receiveMessages, List.foldl_append, ← receiveMessages, hold, List.foldl_cons, List.foldl_nil,
      Receiver.receive, if_neg (by simp), if_neg hne, hdecode]
    dsimp only
    rw [loop_splitStep _ _ _ le_rfl, frames_split chunks.flatten chunk]

/-! ### The server's texts -/

instance (text : Text) : Decidable (IsAscii text) :=
  decidable_of_iff (text.all fun c => c.toNat < 128) (by simp [IsAscii])

theorem IsAscii.nil : IsAscii [] := nofun

theorem IsAscii.append {text text' : Text} (h : IsAscii text) (h' : IsAscii text') :
    IsAscii (text ++ text') := List.forall_mem_append.mpr ⟨h, h'⟩

theorem IsAscii.flatten {texts : List Text} (h : ∀ text ∈ texts, IsAscii text) :
    IsAscii texts.flatten := by
  intro c hc
  obtain ⟨text, htext, hmem⟩ := List.mem_flatten.mp hc
  exact h text htext c hmem

theorem IsAscii.decimal (n : ℕ) : IsAscii (decimal n) := by
  intro c hc
  have hdigit := isDigit_of_mem_decimal hc
  simp only [Char.isDigit, Bool.and_eq_true, decide_eq_true_eq] at hdigit
  have hle : c.toNat ≤ 57 := UInt32.le_iff_toNat_le.mp hdigit.2
  omega

theorem IsAscii.space {text : Text} (h : IsAscii text) : IsAscii (' ' :: text) :=
  List.forall_mem_cons.mpr ⟨by decide, h⟩

/-- A report is seven-bit text if what comes behind its first word is. -/
theorem IsAscii.format {r : Report} (h : IsAscii r.body) : IsAscii r.format := by
  have hverb : IsAscii r.verb := by cases r <;> (unfold Report.verb; dsimp only; decide)
  rw [Report.format_eq, Report.line]
  exact (hverb.append h.space).append (by decide)

theorem IsAscii.trade (t : Trade) : IsAscii (Protocol.formatTrade t) := by
  have hside : IsAscii t.aggressorSide.toText := by cases t.aggressorSide <;> decide
  refine IsAscii.format (r := .trade t) ?_
  exact (IsAscii.decimal _).append ((IsAscii.decimal _).append ((IsAscii.decimal _).append
    ((IsAscii.decimal _).append hside.space).space).space).space

theorem IsAscii.ack (id : OrderId) (q : Quantity) : IsAscii (Protocol.formatAck id q) :=
  IsAscii.format (r := .ack id q) ((IsAscii.decimal _).append (IsAscii.decimal _).space)

theorem IsAscii.canceled (id : OrderId) : IsAscii (Protocol.formatCanceled id) :=
  IsAscii.format (r := .canceled id) (IsAscii.decimal _)

theorem IsAscii.reject (id : OrderId) {reason : Text} (h : IsAscii reason) :
    IsAscii (Protocol.formatReject id reason) :=
  IsAscii.format (r := .reject id reason) ((IsAscii.decimal _).append h.space)

theorem isAscii_payload (b : PoolOrderBook) (msg : IngressMessage) :
    IsAscii (executeCommand b msg).1 := by
  have hnone : IsAscii (if (b.submitOrder msg.command.order []).2.1 = [] ∧
      msg.command.order.type = .market
      then Protocol.formatReject msg.command.order.orderId "NO_LIQUIDITY_FOR_MARKET_ORDER".toList
      else []) := by
    split_ifs
    · exact .reject _ (by decide)
    · exact .nil
  unfold executeCommand
  split
  · exact IsAscii.format (r := .info "BOOK_FLUSHED".toList) (show IsAscii _ by decide)
  · dsimp only
    split_ifs
    · exact .canceled _
    · exact .reject _ (by decide)
  · dsimp only
    by_cases hok : (b.submitOrder msg.command.order []).1 = true
    · rw [if_pos hok]
      refine .append ?_ ?_
      · rw [List.flatMap]
        refine .flatten fun text htext => ?_
        obtain ⟨t, -, rfl⟩ := List.mem_map.mp htext
        exact .trade t
      · cases (b.submitOrder msg.command.order []).2.2.getOrder msg.command.order.orderId with
        | none => exact hnone
        | some resting =>
          by_cases hpos : resting.remainingQuantity > 0
          · dsimp only
            rw [if_pos hpos]
            exact .ack _ _
          · dsimp only
            rw [if_neg hpos]
            exact hnone
    · rw [if_neg hok]
      exact .reject _ (by decide)
  · exact .nil

theorem isAscii_errorMsg (now : Timestamp) (line : Text) :
    IsAscii (Protocol.parseLine now line).errorMsg := by
  have hnew : ∀ tokens, IsAscii (Protocol.parseNew now tokens).errorMsg := by
    intro tokens
    unfold Protocol.parseNew
    repeat' split
    all_goals first
      | (unfold Protocol.error; decide)
      | exact .nil
  have hcancel : ∀ tokens, IsAscii (Protocol.parseCancel tokens).errorMsg := by
    intro tokens
    unfold Protocol.parseCancel
    repeat' split
    all_goals first
      | (unfold Protocol.error; decide)
      | exact .nil
  unfold Protocol.parseLine
  split
  · unfold Protocol.error
    decide
  · split_ifs
    · exact hnew _
    · exact hcancel _
    · exact .nil
    · unfold Protocol.error
      decide

theorem isAscii_runCommands : ∀ {book : PoolOrderBook} {msgs : List IngressMessage}
    {resp : ResponseMessage}, resp ∈ (runCommands book msgs).1 → IsAscii resp.payload
  | _, [], _, h => nomatch h
  | book, msg :: msgs, resp, h => by
    rcases List.mem_append.mp h with h | h
    · rw [IngressMessage.respond] at h
      split_ifs at h
      · cases h
      · rw [List.mem_singleton.mp h]
        exact isAscii_payload book msg
    · exact isAscii_runCommands h

theorem isAscii_rejections (p : TimedLine) : ∀ text ∈ p.rejections, IsAscii text := by
  intro text htext
  rw [TimedLine.rejections] at htext
  split_ifs at htext
  · rw [List.mem_singleton.mp htext]
    exact .reject 0 (isAscii_errorMsg p.2 p.1)
  · cases htext

/-- The lines of a payload. -/
def linesOf (text : Text) : List Text := (frames '\n' text).1

theorem frames_text {text : Text} (h : Report.IsText text) : frames '\n' text = (linesOf text, []) := by
  obtain ⟨reports, hone, rfl⟩ := h
  have hfree : ∀ f ∈ reports.map Report.line, '\n' ∉ f := by
    intro f hf
    obtain ⟨r, hr, rfl⟩ := List.mem_map.mp hf
    exact Report.notMem_line (hone r hr)
  have hwire : Report.wire reports = (reports.map Report.line).flatMap (· ++ ['\n']) ++ [] := by
    rw [Report.wire, List.append_nil, List.flatMap_map]
    exact List.flatMap_congr fun r _ => r.format_eq
  rw [linesOf, hwire, frames_append [] hfree]
  simp [frames]

/-- Payloads behind one another have their lines behind one another. -/
theorem frames_texts {texts : List Text} (h : ∀ text ∈ texts, Report.IsText text) :
    frames '\n' texts.flatten = (texts.flatMap linesOf, []) := by
  induction texts with
  | nil => rfl
  | cons text texts ih =>
    obtain ⟨htext, htexts⟩ := List.forall_mem_cons.mp h
    rw [List.flatten_cons, frames_split, frames_text htext, List.nil_append, ih htexts,
      List.flatMap_cons]

end Client

/-! ### A session -/

open Client in
/-- A session of the client with the server. What was typed is a list of lines; the server has read
    some of what the client sends, and the client has received, in some chunks, some of what the
    server wrote. Then the server has processed the first of the typed commands and no other line,
    the client has printed the first lines of its answers and rejections and nothing else, and it
    still listens. Once everything has arrived and nothing is under way, all commands were processed,
    all of their answers were printed, and no half line is left. -/
theorem client_session (queueCapacity : UInt64) (initial : PoolOrderBook) (serverFd : Fd)
    {ms : List (Move (Gateway _) Choice)} {g : Gateway _}
    (h : Trace Gateway.step (.start queueCapacity initial serverFd) ms g)
    (hnd : (ms.foldl Log.record {}).opened.Nodup) (fd : Fd) {client : ClientConnection}
    (hopen : g.clients.find? fd = some client) (typed chunks : List Text)
    (htyped : ∀ line ∈ typed, '\n' ∉ line) (hchunks : ∀ chunk ∈ chunks, chunk ≠ []) :
    let m := ms.foldl Minutes.record {}
    let lines := (m.dialogues fd).processed.map Prod.fst
    let responses := payloadsTo (runCommands initial m.log.admitted).1 fd
    (m.intakes fd).received <+: sendsOf typed → chunks.flatten <+: (m.outflows fd).accepted →
    lines <+: (commands typed).map encode ∧
    ∃ answers sent, answers <+: responses ∧
      Interleaved answers ((m.dialogues fd).processed.flatMap TimedLine.rejections) sent ∧
      (receiveMessages chunks).printed <+: sent.flatMap linesOf ∧
      (receiveMessages chunks).running = true ∧
      (g.Idle → (m.intakes fd).received = sendsOf typed → client.writeBuffer = [] →
        chunks.flatten = (m.outflows fd).accepted →
        lines = (commands typed).map encode ∧ answers = responses ∧
        (receiveMessages chunks).printed = sent.flatMap linesOf ∧
        (receiveMessages chunks).buffer = []) := by
  intro m lines responses hup hdown
  obtain ⟨hlines, -, hanswers, ⟨sent, hsent, hstream⟩, -, hidle⟩ := Conversation.of_trace h hnd hopen
  have hframes : (frames '\n' (sendsOf typed)).1.map chomp = (commands typed).map encode := by
    rw [frames_sendsOf htyped, chomp_commands]
  have hmem : ∀ text ∈ sent, text ∈ responses ∨
      ∃ p ∈ (m.dialogues fd).processed, text ∈ p.rejections := by
    intro text htext
    rcases hsent.mem_iff.mp htext with ha | hr
    · exact .inl (hanswers.subset ha)
    · exact .inr (List.mem_flatMap.mp hr)
  have htexts : ∀ text ∈ sent, Report.IsText text := by
    intro text htext
    rcases hmem text htext with hr | ⟨p, -, hp⟩
    · obtain ⟨resp, hresp, rfl⟩ := List.mem_map.mp hr
      exact isText_runCommands (List.mem_of_mem_filter hresp)
    · exact isText_rejections p text hp
  have hascii : IsAscii sent.flatten := by
    refine .flatten fun text htext => ?_
    rcases hmem text htext with hr | ⟨p, -, hp⟩
    · obtain ⟨resp, hresp, rfl⟩ := List.mem_map.mp hr
      exact isAscii_runCommands (List.mem_of_mem_filter hresp)
    · exact isAscii_rejections p text hp
  have hpart : chunks.flatten <+: sent.flatten := by
    rw [← hstream]
    exact hdown.trans (List.prefix_append ..)
  have hreceived := receiveMessages_eq hchunks fun c hc => hascii c (hpart.subset hc)
  refine ⟨?_, _, sent, hanswers, hsent, ?_, ?_, ?_⟩
  · rw [← hframes]
    exact hlines.trans ((frames_mono hup).map chomp)
  · rw [hreceived]
    have hall := frames_mono (d := '\n') hpart
    rwa [frames_texts htexts] at hall
  · rw [hreceived]
  · intro hi hall hbuffer hchunk
    obtain ⟨hprocessed, hanswered⟩ := hidle hi
    rw [hbuffer, List.append_nil, ← hchunk] at hstream
    rw [hreceived, hstream, frames_texts htexts]
    refine ⟨?_, hanswered, rfl, rfl⟩
    rw [← hframes, ← hall]
    exact hprocessed

/-- The client sends one malformed line and one order, and is written both replies. -/
def typedSession : List Choice :=
  mixedLines ++ [.network (.wrote (.sent 33)), .network .none]

theorem typedSession_plays :
    (play Gateway.step (Gateway.start 1 (.ctor 1) 3) typedSession).isSome := by
  decide

/-- What is typed: a malformed line, an empty one, an order, and after `Quit` one more line. -/
def typedLines : List Text :=
  [" A ".toList, [], "NEW B 1 100 2\t".toList, "Quit".toList, "FLUSH".toList]

theorem client_session_typedLines :
    let m := (moves Gateway.step (.start 1 (.ctor 1) 3) typedSession).foldl Minutes.record {}
    let chunks := ["REJ".toList, "ECT 0 UNKNOWN_COMMAND\nACK 1 ".toList, "2\n".toList]
    (Client.receiveMessages chunks).printed = ["REJECT 0 UNKNOWN_COMMAND".toList, "ACK 1 2".toList] ∧
    (m.dialogues 5).processed.map Prod.fst = (Client.commands typedLines).map Client.encode := by
  intro m chunks
  refine ⟨?_, ?_⟩
  · rw [Client.receiveMessages_eq (by decide) (by decide)]
    decide
  · obtain ⟨-, _, _, -, -, -, -, hall⟩ := client_session 1 (.ctor 1) 3
      (.of_play (Option.some_get typedSession_plays).symm) (by decide) 5
      (Option.some_get (by decide)).symm typedLines chunks (by decide) (by decide) (by decide)
      (by decide)
    exact (hall ⟨rfl, rfl, rfl, rfl, rfl⟩ (by decide) (by decide) (by decide)).1

end Titan
