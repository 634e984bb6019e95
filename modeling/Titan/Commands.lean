import Titan.Reports
import Titan.Schemes.Words

/-! The commands of a client, as the parser reads them.

    A line is read as its words. What is written out as a command is read as that command, whatever
    its spacing and its leading zeros; but the parser reads more lines than the format it is written
    for has. -/

namespace Titan
open Schemes

namespace Protocol

/-! ### Words of a line -/

theorem loop_splitStep : ∀ (n : ℕ) {words : List Text} {line : Text} (tokens : List Text),
    Spaced isBlank words line → line.length ≤ n →
      (loop splitStep n (line, tokens)).2 = tokens ++ words
  | n, [], line, tokens, h, _ => by
    have hstop : splitStep (line, tokens) = none := by
      rw [splitStep]
      exact if_pos h.of_nil
    cases n with
    | zero => rw [loop, List.append_nil]
    | succ n =>
      rw [loop, hstop]
      exact (List.append_nil tokens).symm
  | 0, w :: words, line, tokens, h, hn => by
    obtain ⟨-, rest, -, -, -, -, hlt⟩ := h.of_cons
    omega
  | n + 1, w :: words, line, tokens, h, hn => by
    obtain ⟨hne, rest, hskip, htake, hdrop, hrest, hlt⟩ := h.of_cons
    have hstep : splitStep (line, tokens) = some (rest, tokens ++ [w]) := by
      rw [splitStep]
      dsimp only
      rw [hskip, if_neg (by simp [hne]), htake, hdrop]
    rw [loop, hstep]
    dsimp only
    rw [loop_splitStep n (tokens ++ [w]) hrest (by omega), List.append_assoc]
    rfl

/-- The tokenizer finds the words of a line. -/
theorem splitTokens_of_spaced {tokens : List Text} {line : Text} (h : Spaced isBlank tokens line) :
    splitTokens line = tokens :=
  loop_splitStep line.length [] h le_rfl

theorem spaced_splitTokens (line : Text) : Spaced isBlank (splitTokens line) line := by
  obtain ⟨tokens, h⟩ : ∃ tokens, Spaced isBlank tokens line := exists_spaced line
  rw [splitTokens_of_spaced h]
  exact h

/-! ### Numbers -/

/-- A number written out behind any number of zeros. -/
def numeral (zeros n : ℕ) : Text := List.replicate zeros '0' ++ decimal n

/-- A token of digits, with its value. -/
def Numeral (token : Text) (n : ℕ) : Prop :=
  token ≠ [] ∧ (∀ c ∈ token, c.isDigit) ∧ Nat.ofDigitChars 10 token 0 = n

theorem numeral_numeral (zeros n : ℕ) : Numeral (numeral zeros n) n := by
  refine ⟨List.append_ne_nil_of_right_ne_nil _ (decimal_ne_nil n), ?_, ?_⟩
  · intro c hc
    rcases List.mem_append.mp hc with hc | hc
    · rw [List.eq_of_mem_replicate hc]
      decide
    · exact isDigit_of_mem_decimal hc
  · rw [numeral, Nat.ofDigitChars_append, Nat.ofDigitChars_replicate_zero, Nat.mul_zero]
    exact Nat.ofDigitChars_ten_toDigits

theorem numeral_of_all {token : Text} (h : token ≠ []) (hdigit : token.all Char.isDigit = true) :
    Numeral token (Nat.ofDigitChars 10 token 0) := ⟨h, List.all_eq_true.mp hdigit, rfl⟩

/-- What `std::from_chars` takes: the digits of a number that fits, and nothing else. -/
theorem parseNum_eq_some {bound n : ℕ} {token : Text} :
    parseNum bound token = some n ↔ Numeral token n ∧ n < bound := by
  have hvalue : token.foldl (fun n c => 10 * n + (c.toNat - '0'.toNat)) 0 =
      Nat.ofDigitChars 10 token 0 := Nat.ofDigitChars_eq_foldl.symm
  rw [parseNum, hvalue]
  constructor
  · intro h
    dsimp only at h
    split_ifs at h with htoken hn
    cases h
    exact ⟨⟨htoken.1, List.all_eq_true.mp htoken.2, rfl⟩, hn⟩
  · rintro ⟨⟨hne, hdigits, rfl⟩, hn⟩
    rw [if_pos ⟨hne, List.all_eq_true.mpr hdigits⟩]
    exact if_pos hn

theorem parseNum_numeral {bound n : ℕ} (zeros : ℕ) (h : n < bound) :
    parseNum bound (numeral zeros n) = some n :=
  parseNum_eq_some.mpr ⟨numeral_numeral zeros n, h⟩

/-! ### Words -/

/-- The words for a side. -/
def sideWords : Side → List Text
  | .buy => ["BUY".toList, "B".toList]
  | .sell => ["SELL".toList, "S".toList]

/-- What says the type of an order; nothing says that it is a limit order. -/
def typeWords : OrderType → List (List Text)
  | .limit => [[], ["LIMIT".toList], ["L".toList]]
  | .market => [["MARKET".toList], ["M".toList]]

theorem parseSide_eq_some {w : Text} : ∀ {side : Side}, parseSide w = some side ↔ w ∈ sideWords side
  | .buy => by
    have hne : Side.sell ≠ .buy := by decide
    unfold parseSide sideWords
    split_ifs with h h' <;> simp_all
  | .sell => by
    have hne : Side.buy ≠ .sell := by decide
    unfold parseSide sideWords
    split_ifs with h h'
    · rcases h with rfl | rfl <;> decide
    · simpa using h'
    · simpa using h'

theorem parseType_of_mem {rest : List Text} : ∀ {type : OrderType}, rest ∈ typeWords type →
    parseType rest.head? = type
  | .limit, h => by
    unfold typeWords at h
    simp only [List.mem_cons, List.not_mem_nil, or_false] at h
    rcases h with rfl | rfl | rfl <;> decide
  | .market, h => by
    unfold typeWords at h
    simp only [List.mem_cons, List.not_mem_nil, or_false] at h
    rcases h with rfl | rfl <;> decide

/-! ### The parser, from its tokens -/

variable {now : Timestamp} {tokens rest : List Text} {sideWord oid price qty : Text} {side : Side}
  {id p q : ℕ}

theorem parseNew_of (hside : parseSide sideWord = some side) (hid : parseNum (2 ^ 64) oid = some id)
    (hp : parseNum (2 ^ 64) price = some p) (hq : parseNum (2 ^ 32) qty = some q)
    (hid0 : id ≠ 0) (hq0 : q ≠ 0) :
    parseNew now (sideWord :: oid :: price :: qty :: rest) =
      { type := .new
        order := {
          orderId := .ofNat id
          price := .ofNat p
          initialQuantity := .ofNat q
          remainingQuantity := .ofNat q
          timestamp := now
          side := side
          type := parseType rest.head? } } := by
  obtain ⟨id, rfl⟩ := Nat.exists_eq_succ_of_ne_zero hid0
  obtain ⟨q, rfl⟩ := Nat.exists_eq_succ_of_ne_zero hq0
  unfold parseNew
  simp only [hside, hid, hp, hq]

theorem parseNew_new (h : (parseNew now tokens).type = .new) :
    ∃ sideWord oid price qty rest side id p q, tokens = sideWord :: oid :: price :: qty :: rest ∧
      parseSide sideWord = some side ∧ parseNum (2 ^ 64) oid = some id ∧ id ≠ 0 ∧
      parseNum (2 ^ 64) price = some p ∧ parseNum (2 ^ 32) qty = some q ∧ q ≠ 0 := by
  unfold parseNew at h
  repeat' split at h
  all_goals try exact absurd (show CommandType.unknown = .new from h) (by decide)
  rename_i sideWord oid price qty rest _ side hside _ id hid0 hid _ p hp _ q hq0 hq
  exact ⟨sideWord, oid, price, qty, rest, side, id, p, q, rfl, hside, hid, hid0, hp, hq, hq0⟩

theorem parseCancel_of (hid : parseNum (2 ^ 64) oid = some id) (hid0 : id ≠ 0) :
    parseCancel (oid :: rest) = { type := .cancel, cancelId := .ofNat id } := by
  obtain ⟨id, rfl⟩ := Nat.exists_eq_succ_of_ne_zero hid0
  unfold parseCancel
  simp only [hid]

theorem parseCancel_cancel (h : (parseCancel tokens).type = .cancel) :
    ∃ oid rest id, tokens = oid :: rest ∧ parseNum (2 ^ 64) oid = some id ∧ id ≠ 0 := by
  unfold parseCancel at h
  repeat' split at h
  all_goals try exact absurd (show CommandType.unknown = .cancel from h) (by decide)
  rename_i oid rest _ id hid0 hid
  exact ⟨oid, rest, id, rfl, hid, hid0⟩

variable {line : Text}

theorem parseLine_new (h : Spaced isBlank ("NEW".toList :: tokens) line) :
    parseLine now line = parseNew now tokens := by
  unfold parseLine
  rw [splitTokens_of_spaced h]
  exact if_pos rfl

theorem parseLine_cancel (h : Spaced isBlank ("CANCEL".toList :: tokens) line) :
    parseLine now line = parseCancel tokens := by
  unfold parseLine
  rw [splitTokens_of_spaced h]
  dsimp only
  rw [if_neg (by decide), if_pos rfl]

theorem parseLine_flush (h : Spaced isBlank ("FLUSH".toList :: tokens) line) :
    parseLine now line = { type := .flush } := by
  unfold parseLine
  rw [splitTokens_of_spaced h]
  dsimp only
  rw [if_neg (by decide), if_neg (by decide), if_pos rfl]

/-- The verb decides which command is read. -/
theorem parseLine_cases (now : Timestamp) (h : Spaced isBlank tokens line) :
    (∃ rest, tokens = "NEW".toList :: rest ∧ parseLine now line = parseNew now rest) ∨
    (∃ rest, tokens = "CANCEL".toList :: rest ∧ parseLine now line = parseCancel rest) ∨
    (∃ rest, tokens = "FLUSH".toList :: rest ∧ parseLine now line = { type := .flush }) ∨
    (parseLine now line).type = .unknown := by
  cases tokens with
  | nil =>
    refine .inr (.inr (.inr ?_))
    unfold parseLine
    rw [splitTokens_of_spaced h]
    rfl
  | cons verb rest =>
    by_cases hnew : verb = "NEW".toList
    · subst hnew
      exact .inl ⟨rest, rfl, parseLine_new h⟩
    by_cases hcancel : verb = "CANCEL".toList
    · subst hcancel
      exact .inr (.inl ⟨rest, rfl, parseLine_cancel h⟩)
    by_cases hflush : verb = "FLUSH".toList
    · subst hflush
      exact .inr (.inr (.inl ⟨rest, rfl, parseLine_flush h⟩))
    refine .inr (.inr (.inr ?_))
    unfold parseLine
    rw [splitTokens_of_spaced h]
    dsimp only
    rw [if_neg hnew, if_neg hcancel, if_neg hflush]
    rfl

theorem parseNew_type (now : Timestamp) (tokens : List Text) :
    (parseNew now tokens).type = .new ∨ (parseNew now tokens).type = .unknown := by
  unfold parseNew
  repeat' split
  all_goals first | exact .inr rfl | exact .inl rfl

theorem parseCancel_type (tokens : List Text) :
    (parseCancel tokens).type = .cancel ∨ (parseCancel tokens).type = .unknown := by
  unfold parseCancel
  repeat' split
  all_goals first | exact .inr rfl | exact .inl rfl

/-! ### What is read as a command -/

/-- The number of a field, from `least` on and below `bound`. -/
def Field (least bound : ℕ) (token : Text) : Prop := ∃ n, Numeral token n ∧ least ≤ n ∧ n < bound

/-- A verb and its operands, and the words behind them. -/
inductive Reads : List Text → CommandType → List Text → Prop
  | new {side : Side} {sideWord oid price qty : Text} {rest : List Text} :
    sideWord ∈ sideWords side → Field 1 (2 ^ 64) oid → Field 0 (2 ^ 64) price →
      Field 1 (2 ^ 32) qty →
      Reads ("NEW".toList :: sideWord :: oid :: price :: qty :: rest) .new rest
  | cancel {oid : Text} {rest : List Text} : Field 1 (2 ^ 64) oid →
      Reads ("CANCEL".toList :: oid :: rest) .cancel rest
  | flush {rest : List Text} : Reads ("FLUSH".toList :: rest) .flush rest

theorem Field.parseNum {bound : ℕ} {token : Text} {least : ℕ} (h : Field least bound token) :
    ∃ n, Protocol.parseNum bound token = some n ∧ least ≤ n := by
  obtain ⟨n, hn, hle, hlt⟩ := h
  exact ⟨n, parseNum_eq_some.mpr ⟨hn, hlt⟩, hle⟩

/-- What a line is read as, its words say. -/
theorem Reads.parseLine {kind : CommandType} (now : Timestamp) (h : Reads tokens kind rest)
    (hwords : Spaced isBlank tokens line) : (Protocol.parseLine now line).type = kind := by
  cases h with
  | new hside hid hp hq =>
    obtain ⟨id, hid, hid0⟩ := hid.parseNum
    obtain ⟨p, hp, -⟩ := hp.parseNum
    obtain ⟨q, hq, hq0⟩ := hq.parseNum
    rw [parseLine_new hwords, parseNew_of (parseSide_eq_some.mpr hside) hid hp hq (by omega)
      (by omega)]
  | cancel hid =>
    obtain ⟨id, hid, hid0⟩ := hid.parseNum
    rw [parseLine_cancel hwords, parseCancel_of hid (by omega)]
  | flush => rw [parseLine_flush hwords]

/-- A line that is read as a command has the words of one. -/
theorem reads_of_parseLine (now : Timestamp) (hwords : Spaced isBlank tokens line)
    (h : (Protocol.parseLine now line).type ≠ .unknown) :
    ∃ rest, Reads tokens (Protocol.parseLine now line).type rest := by
  rcases parseLine_cases now hwords with ⟨words, rfl, hparse⟩ | ⟨words, rfl, hparse⟩ |
    ⟨words, rfl, hparse⟩ | hparse
  · rw [hparse] at h ⊢
    have hnew := (parseNew_type now words).resolve_right h
    obtain ⟨sideWord, oid, price, qty, rest, side, id, p, q, rfl, hside, hid, hid0, hp, hq, hq0⟩ :=
      parseNew_new hnew
    obtain ⟨hid, hidlt⟩ := parseNum_eq_some.mp hid
    obtain ⟨hp, hplt⟩ := parseNum_eq_some.mp hp
    obtain ⟨hq, hqlt⟩ := parseNum_eq_some.mp hq
    rw [hnew]
    exact ⟨rest, .new (parseSide_eq_some.mp hside) ⟨id, hid, by omega, hidlt⟩
      ⟨p, hp, by omega, hplt⟩ ⟨q, hq, by omega, hqlt⟩⟩
  · rw [hparse] at h ⊢
    have hcancel := (parseCancel_type words).resolve_right h
    obtain ⟨oid, rest, id, rfl, hid, hid0⟩ := parseCancel_cancel hcancel
    obtain ⟨hid, hidlt⟩ := parseNum_eq_some.mp hid
    rw [hcancel]
    exact ⟨rest, .cancel ⟨id, hid, by omega, hidlt⟩⟩
  · rw [hparse]
    exact ⟨words, .flush⟩
  · exact absurd hparse h

/-! ### Round trip -/

/-- A command written out, with any spacing, any leading zeros and any of the words for its side and
    type, is parsed to what was written; and the numbers of every command that is parsed stand in
    its line, digit by digit. -/
theorem parseLine_roundTrip (now : Timestamp) (line : Text) :
    (∀ (side : Side) (type : OrderType) (id : OrderId) (price : Price) (qty : Quantity)
        (zeros zeros' zeros'' : ℕ), id ≠ 0 → qty ≠ 0 →
      ∀ sideWord ∈ sideWords side, ∀ typeWord ∈ typeWords type,
        Spaced isBlank ("NEW".toList :: sideWord :: numeral zeros id.toNat ::
            numeral zeros' price.toNat :: numeral zeros'' qty.toNat :: typeWord) line →
          parseLine now line =
            { type := .new
              order := {
                orderId := id
                price := price
                initialQuantity := qty
                remainingQuantity := qty
                timestamp := now
                side := side
                type := type } }) ∧
    (∀ (id : OrderId) (zeros : ℕ), id ≠ 0 →
      Spaced isBlank ["CANCEL".toList, numeral zeros id.toNat] line →
        parseLine now line = { type := .cancel, cancelId := id }) ∧
    (Spaced isBlank ["FLUSH".toList] line → parseLine now line = { type := .flush }) ∧
    ((parseLine now line).type = .new → ∃ sideWord oid price qty rest,
      Spaced isBlank ("NEW".toList :: sideWord :: oid :: price :: qty :: rest) line ∧
      sideWord ∈ sideWords (parseLine now line).order.side ∧
      Numeral oid (parseLine now line).order.orderId.toNat ∧
      Numeral price (parseLine now line).order.price.toNat ∧
      Numeral qty (parseLine now line).order.initialQuantity.toNat ∧
      Numeral qty (parseLine now line).order.remainingQuantity.toNat) ∧
    ((parseLine now line).type = .cancel → ∃ oid rest,
      Spaced isBlank ("CANCEL".toList :: oid :: rest) line ∧
      Numeral oid (parseLine now line).cancelId.toNat) := by
  refine ⟨?_, ?_, parseLine_flush, ?_, ?_⟩
  · intro side type id price qty zeros zeros' zeros'' hid hqty sideWord hside typeWord htype h
    have hid' : id.toNat ≠ 0 := fun h => hid (UInt64.toNat_inj.mp h)
    have hqty' : qty.toNat ≠ 0 := fun h => hqty (UInt32.toNat_inj.mp h)
    rw [parseLine_new h, parseNew_of (parseSide_eq_some.mpr hside)
      (parseNum_numeral zeros id.toNat_lt) (parseNum_numeral zeros' price.toNat_lt)
      (parseNum_numeral zeros'' qty.toNat_lt) hid' hqty', parseType_of_mem htype]
    simp only [UInt64.ofNat_toNat, UInt32.ofNat_toNat]
  · intro id zeros hid h
    have hid' : id.toNat ≠ 0 := fun h => hid (UInt64.toNat_inj.mp h)
    rw [parseLine_cancel h, parseCancel_of (parseNum_numeral zeros id.toNat_lt) hid',
      UInt64.ofNat_toNat]
  · intro htype
    have hwords := spaced_splitTokens line
    obtain ⟨rest, h⟩ := reads_of_parseLine now hwords (by rw [htype]; decide)
    generalize splitTokens line = tokens at hwords h
    rw [htype] at h
    cases h with
    | @new side sideWord oid price qty rest hside hid hp hq =>
      obtain ⟨id, hid, hid0, hidlt⟩ := hid
      obtain ⟨p, hp, -, hplt⟩ := hp
      obtain ⟨q, hq, hq0, hqlt⟩ := hq
      rw [parseLine_new hwords, parseNew_of (parseSide_eq_some.mpr hside)
        (parseNum_eq_some.mpr ⟨hid, hidlt⟩) (parseNum_eq_some.mpr ⟨hp, hplt⟩)
        (parseNum_eq_some.mpr ⟨hq, hqlt⟩) (by omega) (by omega)]
      refine ⟨sideWord, oid, price, qty, rest, hwords, hside, ?_, ?_, ?_, ?_⟩
      · rwa [UInt64.toNat_ofNat_of_lt' hidlt]
      · rwa [UInt64.toNat_ofNat_of_lt' hplt]
      · rwa [UInt32.toNat_ofNat_of_lt' hqlt]
      · rwa [UInt32.toNat_ofNat_of_lt' hqlt]
  · intro htype
    have hwords := spaced_splitTokens line
    obtain ⟨rest, h⟩ := reads_of_parseLine now hwords (by rw [htype]; decide)
    generalize splitTokens line = tokens at hwords h
    rw [htype] at h
    cases h with
    | @cancel oid rest hid =>
      obtain ⟨id, hid, hid0, hidlt⟩ := hid
      rw [parseLine_cancel hwords, parseCancel_of (parseNum_eq_some.mpr ⟨hid, hidlt⟩) (by omega)]
      refine ⟨oid, rest, hwords, ?_⟩
      rwa [UInt64.toNat_ofNat_of_lt' hidlt]

/-- Tabs, leading zeros and short words, read and written. -/
theorem parseLine_roundTrip_spaced :
    parseLine 7 " NEW\tB 007  100 05 L\r".toList =
        { type := .new
          order := {
            orderId := 7
            price := 100
            initialQuantity := 5
            remainingQuantity := 5
            timestamp := 7
            side := .buy
            type := .limit } } ∧
      (∃ sideWord ∈ sideWords .buy, ∃ oid price qty rest,
        Spaced isBlank ("NEW".toList :: sideWord :: oid :: price :: qty :: rest)
          " NEW\tB 007  100 05 L\r".toList ∧ Numeral oid 7 ∧ Numeral price 100 ∧ Numeral qty 5) ∧
      parseLine 7 "CANCEL 012".toList = { type := .cancel, cancelId := 12 } ∧
      (∃ oid rest, Spaced isBlank ("CANCEL".toList :: oid :: rest) "CANCEL 012".toList ∧
        Numeral oid 12) ∧
      parseLine 7 "\tFLUSH".toList = { type := .flush } := by
  have hnew := spaced_splitTokens " NEW\tB 007  100 05 L\r".toList
  rw [show splitTokens " NEW\tB 007  100 05 L\r".toList = "NEW".toList :: "B".toList ::
    numeral 2 (7 : OrderId).toNat :: numeral 0 (100 : Price).toNat ::
    numeral 1 (5 : Quantity).toNat :: ["L".toList] by decide] at hnew
  have hcancel := spaced_splitTokens "CANCEL 012".toList
  rw [show splitTokens "CANCEL 012".toList = ["CANCEL".toList, numeral 1 (12 : OrderId).toNat] by
    decide] at hcancel
  have hflush := spaced_splitTokens "\tFLUSH".toList
  rw [show splitTokens "\tFLUSH".toList = ["FLUSH".toList] by decide] at hflush
  have hread := (parseLine_roundTrip 7 " NEW\tB 007  100 05 L\r".toList).1 .buy .limit 7 100 5 2 0 1
    (by decide) (by decide) "B".toList (by decide) ["L".toList] (by decide) hnew
  have hread' := (parseLine_roundTrip 7 "CANCEL 012".toList).2.1 12 1 (by decide) hcancel
  have hdigits := (parseLine_roundTrip 7 " NEW\tB 007  100 05 L\r".toList).2.2.2.1
  have hdigits' := (parseLine_roundTrip 7 "CANCEL 012".toList).2.2.2.2
  rw [hread] at hdigits
  rw [hread'] at hdigits'
  obtain ⟨sideWord, oid, price, qty, rest, hwords, hside, hid, hp, hq, -⟩ := hdigits rfl
  exact ⟨hread, ⟨sideWord, hside, oid, price, qty, rest, hwords, hid, hp, hq⟩, hread', hdigits' rfl,
    (parseLine_roundTrip 7 "\tFLUSH".toList).2.2.1 hflush⟩

example : parseLine 0 " \tCANCEL\r 0018446744073709551615 ".toList =
    { type := .cancel, cancelId := 18446744073709551615 } := by
  decide

/-! ### The documented format -/

/-- What the format has behind the operands: nothing, or for NEW the type of the order. -/
def Ends : CommandType → List Text → Prop
  | .new, rest => ∃ type, rest ∈ typeWords type
  | _, rest => rest = []

/-- A command in the documented format. -/
def Grammar (tokens : List Text) (kind : CommandType) : Prop :=
  ∃ rest, Reads tokens kind rest ∧ Ends kind rest

theorem Reads.unique {kind kind' : CommandType} {rest' : List Text} (h : Reads tokens kind rest)
    (h' : Reads tokens kind' rest') : kind = kind' ∧ rest = rest' := by
  have hne : "NEW".toList ≠ "CANCEL".toList ∧ "NEW".toList ≠ "FLUSH".toList ∧
    "CANCEL".toList ≠ "FLUSH".toList := by decide
  generalize hsame : tokens = tokens' at h'
  cases h <;> cases h' <;> simp_all

/-- The parser accepts exactly the documented format where nothing stands behind the operands that
    the format does not have there: a word behind NEW that is no type, or one word too many. Such a
    line is read as if the rest were not there. -/
theorem parseLine_grammar (now : Timestamp) {line : Text} {tokens : List Text}
    (hwords : Spaced isBlank tokens line) :
    (((parseLine now line).type = .new ↔ Grammar tokens .new) ∧
      ((parseLine now line).type = .cancel ↔ Grammar tokens .cancel) ∧
      ((parseLine now line).type = .flush ↔ Grammar tokens .flush) ∧
      ((parseLine now line).type = .unknown ↔ ∀ kind, ¬ Grammar tokens kind)) ↔
    ∀ kind rest, Reads tokens kind rest → Ends kind rest := by
  have hunknown : ∀ rest, ¬ Reads tokens .unknown rest := by rintro rest ⟨⟩
  have hiff : ∀ kind, kind ≠ .unknown →
      ((parseLine now line).type = kind ↔ ∃ rest, Reads tokens kind rest) := by
    rintro kind hkind
    constructor
    · rintro rfl
      exact reads_of_parseLine now hwords hkind
    · rintro ⟨rest, h⟩
      exact h.parseLine now hwords
  constructor
  · rintro ⟨hnew, hcancel, hflush, -⟩ kind rest h
    have hgrammar : Grammar tokens kind := by
      have htype := h.parseLine now hwords
      cases kind with
      | new => exact hnew.mp htype
      | cancel => exact hcancel.mp htype
      | flush => exact hflush.mp htype
      | unknown => exact absurd h (hunknown rest)
    obtain ⟨rest', h', hends⟩ := hgrammar
    rwa [(h.unique h').2]
  · intro hends
    have hgrammar : ∀ kind, Grammar tokens kind ↔ ∃ rest, Reads tokens kind rest := fun kind =>
      ⟨fun ⟨rest, h, _⟩ => ⟨rest, h⟩, fun ⟨rest, h⟩ => ⟨rest, h, hends kind rest h⟩⟩
    simp only [hgrammar]
    refine ⟨hiff .new (by decide), hiff .cancel (by decide), hiff .flush (by decide), ?_⟩
    constructor
    · rintro htype kind ⟨rest, h⟩
      rw [h.parseLine now hwords] at htype
      subst htype
      exact hunknown rest h
    · intro hnone
      by_contra htype
      exact hnone _ (reads_of_parseLine now hwords htype)

/-- A market order in the documented format. -/
theorem parseLine_grammar_market :
    (parseLine 7 "NEW S 12 105 30 M".toList).type = .new ↔
      Grammar ["NEW".toList, "S".toList, "12".toList, "105".toList, "30".toList, "M".toList]
        .new := by
  have hwords := spaced_splitTokens "NEW S 12 105 30 M".toList
  rw [show splitTokens "NEW S 12 105 30 M".toList = ["NEW".toList, "S".toList, "12".toList,
    "105".toList, "30".toList, "M".toList] by decide] at hwords
  refine ((parseLine_grammar 7 hwords).mpr fun kind rest h => ?_).1
  have hreads : Reads ["NEW".toList, "S".toList, "12".toList, "105".toList, "30".toList, "M".toList]
      .new ["M".toList] := by
    refine @Reads.new .sell _ _ _ _ _ (by decide) ⟨_, numeral_of_all (by decide) (by decide), ?_⟩
      ⟨_, numeral_of_all (by decide) (by decide), ?_⟩
      ⟨_, numeral_of_all (by decide) (by decide), ?_⟩ <;>
      decide
  obtain ⟨rfl, rfl⟩ := hreads.unique h
  exact ⟨.market, by decide⟩

/-- A misspelt type makes a limit order. -/
theorem parseLine_misspelt : ∃ tokens, Spaced isBlank tokens "NEW BUY 1 100 5 MARKT".toList ∧
    parseLine 0 "NEW BUY 1 100 5 MARKT".toList =
      { type := .new
        order := { orderId := 1, price := 100, initialQuantity := 5, remainingQuantity := 5 } } ∧
    ∀ kind, ¬ Grammar tokens kind := by
  have hwords := spaced_splitTokens "NEW BUY 1 100 5 MARKT".toList
  rw [show splitTokens "NEW BUY 1 100 5 MARKT".toList = ["NEW".toList, "BUY".toList, "1".toList,
    "100".toList, "5".toList, "MARKT".toList] by decide] at hwords
  refine ⟨_, hwords, by decide, ?_⟩
  rintro kind ⟨rest, h, hends⟩
  have hreads : Reads ["NEW".toList, "BUY".toList, "1".toList, "100".toList, "5".toList,
      "MARKT".toList] .new ["MARKT".toList] := by
    refine @Reads.new .buy _ _ _ _ _ (by decide) ⟨_, numeral_of_all (by decide) (by decide), ?_⟩
      ⟨_, numeral_of_all (by decide) (by decide), ?_⟩
      ⟨_, numeral_of_all (by decide) (by decide), ?_⟩ <;>
      decide
  obtain ⟨rfl, rfl⟩ := hreads.unique h
  obtain ⟨type, htype⟩ := hends
  revert htype
  cases type <;> decide

end Protocol

end Titan
