import Mathlib.Tactic

/-! Bounded first-in first-out queues.

    The bound is part of the type: a queue of `n` places never holds more than `n` items. -/

namespace Schemes

/-- A queue of `n` places, its oldest item first. -/
structure Fifo (α : Type*) (n : ℕ) where
  items : List α
  bound : items.length ≤ n

namespace Fifo
variable {α : Type*} {n : ℕ} {q q' : Fifo α n} {x : α}

@[ext] theorem ext (h : q.items = q'.items) : q = q' := by
  cases q; cases q'; cases h; rfl

def empty : Fifo α n := ⟨[], Nat.zero_le _⟩

/-- A full queue takes nothing; the item stays with the caller. -/
def push (q : Fifo α n) (x : α) : Option (Fifo α n) :=
  if h : q.items.length < n then
    some ⟨q.items ++ [x], by rw [List.length_append, List.length_singleton]; omega⟩
  else none

/-- Take the oldest `k` items, or all if there are fewer. -/
def popBatch (q : Fifo α n) (k : ℕ) : List α × Fifo α n :=
  (q.items.take k, ⟨q.items.drop k, by have := q.bound; rw [List.length_drop]; omega⟩)

/-- Take the oldest item. -/
def pop (q : Fifo α n) : Option (α × Fifo α n) :=
  q.items.head?.map fun x => (x, (q.popBatch 1).2)

/-- Pop one item at a time, until there are `k` or the queue is empty: how many there were, and the
    items behind those in `out`. -/
def popUpTo : ℕ → List α → Fifo α n → ℕ × List α × Fifo α n
  | 0, out, q => (0, out, q)
  | k + 1, out, q =>
    match q.pop with
    | none => (0, out, q)
    | some (x, q') =>
      let (count, out, q') := popUpTo k (out ++ [x]) q'
      (count + 1, out, q')

theorem push_eq_some_iff : q.push x = some q' ↔ q.items.length < n ∧ q'.items = q.items ++ [x] := by
  rw [push]
  split_ifs with h
  · rw [Option.some.injEq, Fifo.ext_iff]
    exact ⟨fun he => ⟨h, he.symm⟩, fun he => he.2.symm⟩
  · exact ⟨fun he => (nomatch he), fun he => absurd he.1 h⟩

theorem push_eq_none_iff : q.push x = none ↔ q.items.length = n := by
  have := q.bound
  rw [push]
  split_ifs with h
  · exact ⟨fun he => (nomatch he), fun he => absurd h (by omega)⟩
  · exact ⟨fun _ => by omega, fun _ => rfl⟩

theorem popBatch_append (q : Fifo α n) (k : ℕ) :
    (q.popBatch k).1 ++ (q.popBatch k).2.items = q.items := List.take_append_drop k q.items

theorem items_popBatch (q : Fifo α n) (k : ℕ) : (q.popBatch k).2.items = q.items.drop k := rfl

theorem pop_eq_none_iff : q.pop = none ↔ q.items = [] := by
  rw [pop, Option.map_eq_none_iff, List.head?_eq_none_iff]

theorem pop_eq_some_iff : q.pop = some (x, q') ↔ q.items = x :: q'.items := by
  rw [pop, Option.map_eq_some_iff]
  constructor
  · rintro ⟨y, hy, h⟩
    obtain ⟨xs, hxs⟩ := List.head?_eq_some_iff.mp hy
    cases h
    rw [items_popBatch, hxs]
    rfl
  · intro h
    refine ⟨x, by rw [h]; rfl, ?_⟩
    rw [Prod.mk.injEq, Fifo.ext_iff, items_popBatch, h]
    exact ⟨rfl, rfl⟩

/-- A batch ends where the queue does. -/
theorem popBatch_min (q : Fifo α n) (k : ℕ) : q.popBatch (min k q.items.length) = q.popBatch k := by
  rcases Nat.le_total k q.items.length with hk | hk
  · rw [Nat.min_eq_left hk]
  · rw [Nat.min_eq_right hk]
    refine Prod.ext ?_ (Fifo.ext ?_)
    · show q.items.take _ = q.items.take k
      rw [List.take_length, List.take_of_length_le hk]
    · rw [items_popBatch, items_popBatch, List.drop_length, List.drop_of_length_le hk]

/-- Popping one at a time takes the same as a batch. -/
theorem popUpTo_eq : ∀ (k : ℕ) (out : List α) (q : Fifo α n),
    popUpTo k out q = (min k q.items.length, out ++ (q.popBatch k).1, (q.popBatch k).2)
  | 0, out, q => by
    have hrest : (q.popBatch 0).2 = q := Fifo.ext (items_popBatch q 0)
    rw [popUpTo, hrest, Nat.zero_min]
    show (0, out, q) = (0, out ++ [], q)
    rw [List.append_nil]
  | k + 1, out, q => by
    rw [popUpTo]
    cases hpop : q.pop with
    | none =>
      have hnil := pop_eq_none_iff.mp hpop
      have hrest : (q.popBatch (k + 1)).2 = q := by
        rw [Fifo.ext_iff, items_popBatch, hnil, List.drop_nil]
      have hout : (q.popBatch (k + 1)).1 = [] := by
        show q.items.take (k + 1) = []
        rw [hnil, List.take_nil]
      rw [hrest, hout, hnil, List.append_nil]
      rfl
    | some p =>
      obtain ⟨x, q'⟩ := p
      have hcons := pop_eq_some_iff.mp hpop
      have hrest : (q.popBatch (k + 1)).2 = (q'.popBatch k).2 := by
        rw [Fifo.ext_iff, items_popBatch, items_popBatch, hcons, List.drop_succ_cons]
      have hout : (q.popBatch (k + 1)).1 = x :: (q'.popBatch k).1 := by
        show q.items.take (k + 1) = x :: q'.items.take k
        rw [hcons, List.take_succ_cons]
      dsimp only
      rw [popUpTo_eq k, hrest, hout, hcons, List.append_assoc, List.length_cons,
        Nat.add_min_add_right]
      rfl

end Fifo

end Schemes
