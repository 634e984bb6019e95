import Titan.Protocol
import Titan.Schemes.Frames
import Mathlib.Data.List.TakeWhile

/-! The reports of the server, as a client reads them.

    A client splits what it receives at the ends of lines, and a line at its spaces. What it reads is
    what was sent: a report is decided by its text, but for the time of a trade, which is not sent. -/

namespace Titan
open Schemes

/-! ### Numbers and words -/

theorem decimal_ne_nil (n : ℕ) : decimal n ≠ [] := Nat.toDigits_ne_nil

theorem isDigit_of_mem_decimal {n : ℕ} {c : Char} (h : c ∈ decimal n) : c.isDigit :=
  Nat.isDigit_of_mem_toDigits (by decide) (by decide) h

theorem notMem_decimal {c : Char} (hc : c.isDigit = false) (n : ℕ) : c ∉ decimal n := by
  intro h
  rw [isDigit_of_mem_decimal h] at hc
  cases hc

/-- The parser reads back what `std::to_string` writes. -/
theorem parseNum_decimal {n bound : ℕ} (h : n < bound) :
    Protocol.parseNum bound (decimal n) = some n := by
  have hdigits : (decimal n).all Char.isDigit := List.all_eq_true.mpr fun _ => isDigit_of_mem_decimal
  have hvalue : (decimal n).foldl (fun n c => 10 * n + (c.toNat - '0'.toNat)) 0 = n :=
    Nat.ofDigitChars_ten_toDigits
  rw [Protocol.parseNum, if_pos ⟨decimal_ne_nil n, hdigits⟩, hvalue]
  exact if_pos h

/-- A text up to its first space, and what comes behind that. -/
def word (text : Text) : Text × Text :=
  (text.takeWhile (· ≠ ' '), (text.dropWhile (· ≠ ' ')).drop 1)

theorem word_append {w : Text} (h : ' ' ∉ w) (rest : Text) : word (w ++ ' ' :: rest) = (w, rest) := by
  have hall : ∀ c ∈ w, decide (c ≠ ' ') = true := by
    intro c hc
    rw [decide_eq_true_eq]
    rintro rfl
    exact h hc
  rw [word, List.takeWhile_append_of_pos hall, List.dropWhile_append_of_pos hall]
  simp

theorem word_of_notMem {w : Text} (h : ' ' ∉ w) : word w = (w, []) := by
  have hall : ∀ c ∈ w, decide (c ≠ ' ') = true := by
    intro c hc
    rw [decide_eq_true_eq]
    rintro rfl
    exact h hc
  rw [word, List.takeWhile_eq_self_iff.mpr hall, List.dropWhile_eq_nil_iff.mpr hall]
  rfl

/-- A number and what comes behind it. -/
def readNumber (bound : ℕ) (text : Text) : Option (ℕ × Text) :=
  (Protocol.parseNum bound (word text).1).map (·, (word text).2)

theorem readNumber_append {n bound : ℕ} (h : n < bound) (rest : Text) :
    readNumber bound (decimal n ++ ' ' :: rest) = some (n, rest) := by
  rw [readNumber, word_append (notMem_decimal (by decide) n), parseNum_decimal h]
  rfl

theorem readNumber_decimal {n bound : ℕ} (h : n < bound) :
    readNumber bound (decimal n) = some (n, []) := by
  rw [readNumber, word_of_notMem (notMem_decimal (by decide) n), parseNum_decimal h]
  rfl

/-! ### Reports -/

/-- A message of the server. -/
inductive Report where
  | trade (trade : Trade)
  | ack (id : OrderId) (remainingQty : Quantity)
  | canceled (id : OrderId)
  | reject (id : OrderId) (reason : Text)
  | info (message : Text)
  deriving DecidableEq

namespace Report

def format : Report → Text
  | .trade t => Protocol.formatTrade t
  | .ack id remainingQty => Protocol.formatAck id remainingQty
  | .canceled id => Protocol.formatCanceled id
  | .reject id reason => Protocol.formatReject id reason
  | .info message => Protocol.formatInfo message

/-- The text of several reports. -/
def wire (reports : List Report) : Text := reports.flatMap format

/-- What is sent of a report. -/
def sent : Report → Report
  | .trade t => .trade { t with timestamp := 0 }
  | r => r

/-- The text of a report is on one line. -/
def OneLine : Report → Prop
  | .reject _ reason => '\n' ∉ reason
  | .info message => '\n' ∉ message
  | .trade _ | .ack _ _ | .canceled _ => True

/-- The first word of a report. -/
def verb : Report → Text
  | .trade _ => "TRADE".toList
  | .ack _ _ => "ACK".toList
  | .canceled _ => "CANCELED".toList
  | .reject _ _ => "REJECT".toList
  | .info _ => "INFO".toList

/-- What comes behind the first word. -/
def body : Report → Text
  | .trade t =>
    decimal t.makerOrderId.toNat ++ ' ' :: (decimal t.takerOrderId.toNat ++ ' ' ::
      (decimal t.price.toNat ++ ' ' :: (decimal t.quantity.toNat ++ ' ' ::
        t.aggressorSide.toText)))
  | .ack id remainingQty => decimal id.toNat ++ ' ' :: decimal remainingQty.toNat
  | .canceled id => decimal id.toNat
  | .reject id reason => decimal id.toNat ++ ' ' :: reason
  | .info message => message

/-- The line of a report, without its end. -/
def line (r : Report) : Text := r.verb ++ ' ' :: r.body

theorem format_eq (r : Report) : r.format = r.line ++ ['\n'] := by
  have hend : "\n".toList = ['\n'] := by decide
  have hspace : " ".toList = [' '] := by decide
  cases r with
  | trade t =>
    have hverb : "TRADE ".toList = "TRADE".toList ++ [' '] := by decide
    unfold line format verb body Protocol.formatTrade
    rw [hverb, hspace, hend]
    simp only [List.append_assoc, List.cons_append, List.nil_append]
  | ack id q =>
    have hverb : "ACK ".toList = "ACK".toList ++ [' '] := by decide
    unfold line format verb body Protocol.formatAck
    rw [hverb, hspace, hend]
    simp only [List.append_assoc, List.cons_append, List.nil_append]
  | canceled id =>
    have hverb : "CANCELED ".toList = "CANCELED".toList ++ [' '] := by decide
    unfold line format verb body Protocol.formatCanceled
    rw [hverb, hend]
    simp only [List.append_assoc, List.cons_append, List.nil_append]
  | reject id reason =>
    have hverb : "REJECT ".toList = "REJECT".toList ++ [' '] := by decide
    unfold line format verb body Protocol.formatReject
    rw [hverb, hspace, hend]
    simp only [List.append_assoc, List.cons_append, List.nil_append]
  | info message =>
    have hverb : "INFO ".toList = "INFO".toList ++ [' '] := by decide
    unfold line format verb body Protocol.formatInfo
    rw [hverb, hend]
    simp only [List.append_assoc, List.cons_append, List.nil_append]

theorem wire_ne_nil {rs : List Report} (h : rs ≠ []) : wire rs ≠ [] := by
  obtain ⟨r, rs, rfl⟩ := List.exists_cons_of_ne_nil h
  rw [wire, List.flatMap_cons, format_eq]
  simp

/-! ### Reading -/

def readTrade (text : Text) : Option Report :=
  (readNumber (2 ^ 64) text).bind fun (maker, text) =>
  (readNumber (2 ^ 64) text).bind fun (taker, text) =>
  (readNumber (2 ^ 64) text).bind fun (price, text) =>
  (readNumber (2 ^ 32) text).bind fun (quantity, text) =>
  (Protocol.parseSide text).map fun side => .trade {
    makerOrderId := .ofNat maker
    takerOrderId := .ofNat taker
    price := .ofNat price
    quantity := .ofNat quantity
    aggressorSide := side }

/-- Read a line without its end. -/
def read (line : Text) : Option Report :=
  let (verb, text) := word line
  if verb = "TRADE".toList then readTrade text
  else if verb = "ACK".toList then
    (readNumber (2 ^ 64) text).bind fun (id, text) =>
    (readNumber (2 ^ 32) text).map fun (quantity, _) => .ack (.ofNat id) (.ofNat quantity)
  else if verb = "CANCELED".toList then
    (readNumber (2 ^ 64) text).map fun (id, _) => .canceled (.ofNat id)
  else if verb = "REJECT".toList then
    (readNumber (2 ^ 64) text).map fun (id, reason) => .reject (.ofNat id) reason
  else if verb = "INFO".toList then some (.info text)
  else none

theorem word_line (r : Report) : word r.line = (r.verb, r.body) := by
  refine word_append ?_ r.body
  cases r <;> (unfold verb; dsimp only; decide)

theorem readTrade_body (t : Trade) :
    readTrade (Report.trade t).body = some (Report.trade t).sent := by
  have hside : Protocol.parseSide t.aggressorSide.toText = some t.aggressorSide := by
    cases t.aggressorSide <;> decide
  unfold readTrade body
  dsimp only
  rw [readNumber_append t.makerOrderId.toNat_lt, Option.bind_some]
  dsimp only
  rw [readNumber_append t.takerOrderId.toNat_lt, Option.bind_some]
  dsimp only
  rw [readNumber_append t.price.toNat_lt, Option.bind_some]
  dsimp only
  rw [readNumber_append t.quantity.toNat_lt, Option.bind_some]
  dsimp only
  rw [hside, Option.map_some, UInt64.ofNat_toNat, UInt64.ofNat_toNat, UInt64.ofNat_toNat,
    UInt32.ofNat_toNat]
  rfl

theorem read_line (r : Report) : read r.line = some r.sent := by
  unfold read
  rw [word_line]
  cases r with
  | trade t => exact readTrade_body t
  | ack id q =>
    unfold verb body
    dsimp only
    rw [if_neg (by decide), if_pos rfl, readNumber_append id.toNat_lt, Option.bind_some]
    dsimp only
    rw [readNumber_decimal q.toNat_lt, Option.map_some, UInt64.ofNat_toNat, UInt32.ofNat_toNat]
    rfl
  | canceled id =>
    unfold verb body
    dsimp only
    rw [if_neg (by decide), if_neg (by decide), if_pos rfl, readNumber_decimal id.toNat_lt,
      Option.map_some, UInt64.ofNat_toNat]
    rfl
  | reject id reason =>
    unfold verb body
    dsimp only
    rw [if_neg (by decide), if_neg (by decide), if_neg (by decide), if_pos rfl,
      readNumber_append id.toNat_lt, Option.map_some, UInt64.ofNat_toNat]
    rfl
  | info message => rfl

theorem notMem_line {r : Report} (h : r.OneLine) : '\n' ∉ r.line := by
  have hdecimal : ∀ n, '\n' ∉ decimal n := notMem_decimal (by decide)
  have hside : ∀ s : Side, '\n' ∉ s.toText := fun s => by cases s <;> decide
  have hverb : '\n' ∉ r.verb := by cases r <;> (unfold verb; dsimp only; decide)
  have hbody : '\n' ∉ r.body := by
    cases r with
    | trade t =>
      unfold body
      dsimp only
      simp [hdecimal, hside]
    | ack id q =>
      unfold body
      dsimp only
      simp [hdecimal]
    | canceled id => exact hdecimal _
    | reject id reason =>
      have hreason : '\n' ∉ reason := h
      unfold body
      dsimp only
      simp [hdecimal, hreason]
    | info message => exact h
  simp [line, hverb, hbody]

/-- Read lines that are all reports. -/
def readLines : List Text → Option (List Report)
  | [] => some []
  | line :: lines =>
    (read line).bind fun report => (readLines lines).map (report :: ·)

/-- Read a payload that ends with the end of a line. -/
def readAll (payload : Text) : Option (List Report) :=
  if (frames '\n' payload).2 = [] then readLines (frames '\n' payload).1 else none

theorem readLines_map : ∀ rs : List Report, readLines (rs.map line) = some (rs.map sent)
  | [] => rfl
  | r :: rs => by
    rw [List.map_cons, readLines, read_line, readLines_map rs]
    rfl

theorem frames_wire {rs : List Report} (h : ∀ r ∈ rs, r.OneLine) :
    frames '\n' (wire rs) = (rs.map line, []) := by
  have hwire : wire rs = (rs.map line).flatMap (· ++ ['\n']) ++ [] := by
    rw [List.append_nil, List.flatMap_map, wire]
    exact List.flatMap_congr fun r _ => r.format_eq
  have hlines : ∀ l ∈ rs.map line, '\n' ∉ l := by
    intro l hl
    obtain ⟨r, hr, rfl⟩ := List.mem_map.mp hl
    exact notMem_line (h r hr)
  rw [hwire, frames_append [] hlines]
  simp [frames]

/-- A client reads what was sent. -/
theorem readAll_wire {rs : List Report} (h : ∀ r ∈ rs, r.OneLine) :
    readAll (wire rs) = some (rs.map sent) := by
  rw [readAll, frames_wire h, if_pos rfl, readLines_map]

/-! ### What a client keeps account of -/

/-- The trades among the reports. -/
def trades (reports : List Report) : List Trade :=
  reports.filterMap fun
    | .trade t => some t
    | _ => none

/-- The acknowledgements among the reports. -/
def acks (reports : List Report) : List (OrderId × Quantity) :=
  reports.filterMap fun
    | .ack id remainingQty => some (id, remainingQty)
    | _ => none

theorem trades_append (rs qs : List Report) : trades (rs ++ qs) = trades rs ++ trades qs :=
  List.filterMap_append

theorem acks_append (rs qs : List Report) : acks (rs ++ qs) = acks rs ++ acks qs :=
  List.filterMap_append

theorem trades_map_trade (ts : List Trade) : trades (ts.map .trade) = ts := by
  rw [trades, List.filterMap_map]
  exact List.filterMap_some

theorem acks_map_trade (ts : List Trade) : acks (ts.map .trade) = [] := by
  rw [acks, List.filterMap_map]
  exact List.filterMap_eq_nil_iff.mpr fun _ _ => rfl

end Report

end Titan
