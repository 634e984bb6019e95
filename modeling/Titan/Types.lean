import Mathlib.Order.Defs.Unbundled
import Mathlib.Tactic

/-! Orders, trades and the price order of each side of a book. -/

namespace Titan

abbrev OrderId := UInt64

/-- Stored in ticks. -/
abbrev Price := UInt64

abbrev Quantity := UInt32

/-- Nanoseconds. -/
abbrev Timestamp := UInt64

inductive Side where | buy | sell
  deriving DecidableEq, Repr

inductive OrderType where | limit | market
  deriving DecidableEq, Repr

structure Order where
  orderId : OrderId := 0
  price : Price := 0
  initialQuantity : Quantity := 0
  remainingQuantity : Quantity := 0
  timestamp : Timestamp := 0
  side : Side := .buy
  type : OrderType := .limit
  deriving DecidableEq, Repr

def Order.isFilled (o : Order) : Bool := o.remainingQuantity = 0

structure Trade where
  makerOrderId : OrderId := 0
  takerOrderId : OrderId := 0
  /-- Execution price: the price of the resting order. -/
  price : Price := 0
  quantity : Quantity := 0
  timestamp : Timestamp := 0
  aggressorSide : Side := .buy
  deriving DecidableEq, Repr

/-- The side an order of side `s` trades against. -/
def Side.opp : Side → Side
  | .buy => .sell
  | .sell => .buy

@[simp] theorem Side.opp_opp : ∀ s : Side, s.opp.opp = s
  | .buy | .sell => rfl

@[simp] theorem Side.opp_ne : ∀ s : Side, s.opp ≠ s
  | .buy | .sell => by decide

@[simp] theorem Side.ne_opp (s : Side) : s ≠ s.opp := s.opp_ne.symm

theorem Side.eq_or_eq_opp : ∀ s t : Side, t = s ∨ t = s.opp
  | .buy, .buy | .buy, .sell | .sell, .buy | .sell, .sell => by decide

/-- The comparator of a side's level map: the highest bid and the lowest ask come first. -/
def better : Side → Price → Price → Prop
  | .buy, p, q => q < p
  | .sell, p, q => p < q

instance : ∀ s : Side, DecidableRel (better s)
  | .buy => fun p q => inferInstanceAs (Decidable (q < p))
  | .sell => fun p q => inferInstanceAs (Decidable (p < q))

instance isStrictTotalOrder_lt : IsStrictTotalOrder UInt64 (· < ·) where
  trichotomous _ _ _ _ := by grind
  irrefl _ := by grind
  trans _ _ _ _ _ := by grind

instance (s : Side) : IsStrictTotalOrder Price (better s) where
  trichotomous _ _ _ _ := by cases s <;> simp only [better] at * <;> grind
  irrefl _ := by cases s <;> simp only [better] <;> grind
  trans _ _ _ _ _ := by cases s <;> simp only [better] at * <;> grind

@[simp] theorem better_irrefl (s : Side) (p : Price) : ¬ better s p p := irrefl_of (better s) p

theorem better_trans {s : Side} {p q r : Price} (h : better s p q) (h' : better s q r) :
    better s p r := trans_of (better s) h h'

theorem better_asymm {s : Side} {p q : Price} (h : better s p q) : ¬ better s q p := fun h' =>
  better_irrefl s p (better_trans h h')

/-- What is better for a buyer's book is worse for a seller's. -/
theorem better_opp {s : Side} {p q : Price} : better s.opp p q ↔ better s q p := by
  cases s <;> rfl

/-- `q` is no better than `p`: prices of a side in the order its map lists them. -/
theorem better_of_not_better {s : Side} {p q r : Price} (h : better s p q) (h' : ¬ better s r q) :
    better s p r := by
  rcases trichotomous_of (better s) r q with hr | rfl | hr
  · exact absurd hr h'
  · exact h
  · exact better_trans h hr

end Titan
