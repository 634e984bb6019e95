import Titan.Schemes.Loop
import Titan.Types

/-! The text protocol: commands in, reports out. -/

namespace Titan
open Schemes

/-- A `std::string`, character by character. -/
abbrev Text := List Char

def Side.toText : Side → Text
  | .buy => "BUY".toList
  | .sell => "SELL".toList

/-- `std::to_string` of an unsigned number. -/
def decimal (n : ℕ) : Text := Nat.toDigits 10 n

inductive CommandType where | new | cancel | flush | unknown
  deriving DecidableEq, Repr

structure ParsedCommand where
  type : CommandType := .unknown
  order : Order := {}
  cancelId : OrderId := 0
  errorMsg : Text := []
  deriving DecidableEq

namespace Protocol

/-! ### Commands -/

def isBlank (c : Char) : Bool := c = ' ' ∨ c = '\t' ∨ c = '\r'

/-- One pass of the tokenizer's loop: skip blanks, then take a token up to the next blank. -/
def splitStep (s : Text × List Text) : Option (Text × List Text) :=
  let rest := s.1.dropWhile isBlank
  if rest = [] then none
  else some (rest.dropWhile (!isBlank ·), s.2 ++ [rest.takeWhile (!isBlank ·)])

def splitTokens (line : Text) : List Text := (loop splitStep line.length (line, [])).2

/-- `std::from_chars` into an unsigned field below `bound`, all of the token being used. -/
def parseNum (bound : ℕ) (sv : Text) : Option ℕ :=
  if sv ≠ [] ∧ sv.all Char.isDigit then
    let n := sv.foldl (fun n c => 10 * n + (c.toNat - '0'.toNat)) 0
    if n < bound then some n else none
  else none

def error (errorMsg : String) : ParsedCommand := { errorMsg := errorMsg.toList }

def parseSide (token : Text) : Option Side :=
  if token = "BUY".toList ∨ token = "B".toList then some .buy
  else if token = "SELL".toList ∨ token = "S".toList then some .sell
  else none

/-- A type that is not known is a limit order. -/
def parseType (token : Option Text) : OrderType :=
  match token with
  | none => .limit
  | some token =>
    if token = "MARKET".toList ∨ token = "M".toList then .market
    else if token = "LIMIT".toList ∨ token = "L".toList then .limit
    else .limit

/-- `NEW <SIDE> <ORDER_ID> <PRICE> <QTY> [LIMIT|MARKET]`, after the verb. -/
def parseNew (now : Timestamp) : List Text → ParsedCommand
  | side :: oid :: price :: qty :: rest =>
    match parseSide side with
    | none => error "INVALID_SIDE: Expected BUY or SELL"
    | some side =>
      match parseNum (2 ^ 64) oid with
      | none | some 0 => error "INVALID_ORDER_ID"
      | some oid =>
        match parseNum (2 ^ 64) price with
        | none => error "INVALID_PRICE"
        | some price =>
          match parseNum (2 ^ 32) qty with
          | none | some 0 => error "INVALID_QUANTITY"
          | some qty =>
            { type := .new
              order := {
                orderId := .ofNat oid
                price := .ofNat price
                initialQuantity := .ofNat qty
                remainingQuantity := .ofNat qty
                timestamp := now
                side := side
                type := parseType rest.head? } }
  | _ => error "INVALID_NEW_FORMAT: Expected 'NEW <BUY|SELL> <ID> <PRICE> <QTY> [TYPE]'"

/-- `CANCEL <ORDER_ID>`, after the verb. -/
def parseCancel : List Text → ParsedCommand
  | [] => error "INVALID_CANCEL_FORMAT: Expected 'CANCEL <ORDER_ID>'"
  | oid :: _ =>
    match parseNum (2 ^ 64) oid with
    | none | some 0 => error "INVALID_ORDER_ID"
    | some oid => { type := .cancel, cancelId := .ofNat oid }

/-- Parse a line without its line end; `now` is the reading of the clock. -/
def parseLine (now : Timestamp) (line : Text) : ParsedCommand :=
  match splitTokens line with
  | [] => error "EMPTY_COMMAND"
  | verb :: tokens =>
    if verb = "NEW".toList then parseNew now tokens
    else if verb = "CANCEL".toList then parseCancel tokens
    else if verb = "FLUSH".toList then { type := .flush }
    else error "UNKNOWN_COMMAND"

example : parseLine 7 "NEW S 12 105 30 M".toList = { type := .new, order :=
    { orderId := 12, price := 105, initialQuantity := 30, remainingQuantity := 30, timestamp := 7,
      side := .sell, type := .market } } := by
  decide

/-! ### Reports -/

def formatAck (id : OrderId) (remainingQty : Quantity) : Text :=
  "ACK ".toList ++ decimal id.toNat ++ " ".toList ++ decimal remainingQty.toNat ++ "\n".toList

def formatTrade (trade : Trade) : Text :=
  "TRADE ".toList ++ decimal trade.makerOrderId.toNat ++ " ".toList ++
    decimal trade.takerOrderId.toNat ++ " ".toList ++ decimal trade.price.toNat ++ " ".toList ++
    decimal trade.quantity.toNat ++ " ".toList ++ trade.aggressorSide.toText ++ "\n".toList

def formatCanceled (id : OrderId) : Text :=
  "CANCELED ".toList ++ decimal id.toNat ++ "\n".toList

def formatReject (id : OrderId) (reason : Text) : Text :=
  "REJECT ".toList ++ decimal id.toNat ++ " ".toList ++ reason ++ "\n".toList

def formatInfo (message : Text) : Text := "INFO ".toList ++ message ++ "\n".toList

end Protocol

end Titan
